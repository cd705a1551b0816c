import HotSpot.Lib.Tiling
import Mathlib.Data.Nat.Log
import Mathlib.Logic.Function.Basic
import Mathlib.Tactic.Common

/-! # The block offset table

The part of `blockOffsetTable.cpp` that both kinds of table share. The heap is
cut into cards; the entry of a card is either the distance from its first word
back to the start of the block that holds this word or, from `N_words` on, a
power of 16 by which a lookup goes back in cards.

Addresses of heap words are counted in words, those handed to a lookup in bytes.
-/

namespace HotSpot

namespace BlockOffset

/-- Why a function of the table does not return. -/
inductive Failure where
  /-- A failed `assert`, which stops a debug build, with its text. -/
  | assertion (text : String)
  /-- The value of a shift is not defined by the language. -/
  | undefinedShift
  | outOfFuel
  deriving DecidableEq, Repr

def vmAssert (p : Prop) [Decidable p] (text : String) : Except Failure Unit :=
  if p then .ok () else .error (.assertion text)

@[simp] theorem vmAssert_of {p : Prop} [Decidable p] (hp : p) (text : String) :
    vmAssert p text = .ok () := if_pos hp

@[simp] theorem ok_bind {α β : Type} (a : α) (f : α → Except Failure β) :
    (Except.ok a >>= f) = f a := rfl

def logN : Nat := 9
def logBase : Nat := 4
def nPowers : Nat := 14

/-- The heap, the region of it that the shared array covers and the part of this region
that one table covers. `Space::initialize` asserts that a space starts on a page boundary,
and regions are reserved in pages; a page is a whole number of cards. -/
structure Cover where
  logHeapWordSize : Nat
  wordSize_cases : logHeapWordSize = 2 ∨ logHeapWordSize = 3
  heapStart : Nat
  heapEnd : Nat
  reservedStart : Nat
  reservedEnd : Nat
  bottom : Nat
  limit : Nat
  heapStart_pos : 0 < heapStart
  heapStart_le : heapStart ≤ reservedStart
  reservedEnd_le : reservedEnd ≤ heapEnd
  reservedStart_le : reservedStart ≤ bottom
  bottom_lt : bottom < limit
  limit_le : limit ≤ reservedEnd
  reservedStart_aligned : 2 ^ (logN - logHeapWordSize) ∣ reservedStart
  bottom_aligned : 2 ^ (logN - logHeapWordSize) ∣ bottom

namespace Cover

variable (g : Cover)

def logNWords : Nat := logN - g.logHeapWordSize
def nWords : Nat := 1 <<< g.logNWords
def heapWordSize : Nat := 1 <<< g.logHeapWordSize

/-- The byte address of a heap word. -/
def byteAddr (p : Nat) : Nat := p * g.heapWordSize

def indexFor (addr : Nat) : Nat := (addr - g.byteAddr g.reservedStart) >>> logN
def addressForIndex (index : Nat) : Nat := g.reservedStart + (index <<< g.logNWords)

/-- `is_in_reserved` of the heap. -/
def IsInReserved (p : Nat) : Prop := g.heapStart ≤ p ∧ p < g.heapEnd

instance (p : Nat) : Decidable (g.IsInReserved p) := inferInstanceAs (Decidable (_ ∧ _))

/-- The card that holds a heap word. -/
def cardOf (p : Nat) : Nat := g.indexFor (g.byteAddr p)

def bottomCard : Nat := g.cardOf g.bottom

theorem size_cases :
    (g.logNWords = 6 ∧ g.nWords = 64 ∧ g.heapWordSize = 8) ∨
      (g.logNWords = 7 ∧ g.nWords = 128 ∧ g.heapWordSize = 4) := by
  rcases g.wordSize_cases with h | h
  · right; simp [nWords, logNWords, heapWordSize, logN, h]
  · left; simp [nWords, logNWords, heapWordSize, logN, h]

theorem nWords_pos : 0 < g.nWords := by
  rcases g.size_cases with ⟨-, h, -⟩ | ⟨-, h, -⟩ <;> omega

theorem nWords_le : g.nWords ≤ 128 := by
  rcases g.size_cases with ⟨-, h, -⟩ | ⟨-, h, -⟩ <;> omega

theorem addressForIndex_eq (index : Nat) :
    g.addressForIndex index = g.reservedStart + g.nWords * index := by
  rw [addressForIndex, nWords, Nat.shiftLeft_eq, Nat.shiftLeft_eq, Nat.one_mul, Nat.mul_comm]

theorem indexFor_eq (addr : Nat) :
    g.indexFor addr = (addr / g.heapWordSize - g.reservedStart) / g.nWords := by
  rw [indexFor, byteAddr, Nat.shiftRight_eq_div_pow]
  rcases g.size_cases with ⟨-, hn, hw⟩ | ⟨-, hn, hw⟩ <;>
  · rw [hn, hw, logN]
    omega

theorem byteAddr_le_iff {p addr : Nat} : g.byteAddr p ≤ addr ↔ p ≤ addr / g.heapWordSize := by
  rw [byteAddr]
  rcases g.size_cases with ⟨-, -, hw⟩ | ⟨-, -, hw⟩ <;>
  · rw [hw]
    omega

theorem lt_byteAddr_iff {p addr : Nat} : addr < g.byteAddr p ↔ addr / g.heapWordSize < p := by
  have := @byteAddr_le_iff g p addr
  omega

theorem cardOf_eq (p : Nat) : g.cardOf p = (p - g.reservedStart) / g.nWords := by
  rw [cardOf, indexFor_eq, byteAddr]
  rcases g.size_cases with ⟨-, -, hw⟩ | ⟨-, -, hw⟩ <;>
  · rw [hw, Nat.mul_div_cancel _ (by decide)]

theorem indexFor_eq_cardOf (addr : Nat) : g.indexFor addr = g.cardOf (addr / g.heapWordSize) := by
  rw [indexFor_eq, cardOf_eq]

/-- A card holds the words from its address to that of the next card. -/
theorem cardOf_eq_iff {p c : Nat} (hp : g.reservedStart ≤ p) :
    g.cardOf p = c ↔ g.addressForIndex c ≤ p ∧ p < g.addressForIndex (c + 1) := by
  rw [cardOf_eq, addressForIndex_eq, addressForIndex_eq]
  rcases g.size_cases with ⟨-, hn, -⟩ | ⟨-, hn, -⟩ <;>
  · rw [hn]
    omega

theorem addressForIndex_succ (c : Nat) :
    g.addressForIndex (c + 1) = g.addressForIndex c + g.nWords := by
  rw [addressForIndex_eq, addressForIndex_eq, Nat.mul_succ, Nat.add_assoc]

theorem addressForIndex_lt_iff {c d : Nat} :
    g.addressForIndex c < g.addressForIndex d ↔ c < d := by
  rw [addressForIndex_eq, addressForIndex_eq, Nat.add_lt_add_iff_left,
    Nat.mul_lt_mul_left g.nWords_pos]

theorem addressForIndex_le_iff {c d : Nat} :
    g.addressForIndex c ≤ g.addressForIndex d ↔ c ≤ d := by
  rw [← Nat.not_lt, addressForIndex_lt_iff, Nat.not_lt]

theorem addressForIndex_sub {c k : Nat} (hk : k ≤ c) :
    g.addressForIndex c - g.nWords * k = g.addressForIndex (c - k) := by
  obtain ⟨d, rfl⟩ := Nat.exists_eq_add_of_le hk
  rw [addressForIndex_eq, addressForIndex_eq, Nat.mul_add, Nat.add_sub_cancel_left]
  omega

theorem reservedStart_le_addressForIndex (c : Nat) : g.reservedStart ≤ g.addressForIndex c := by
  rw [addressForIndex_eq]
  exact Nat.le_add_right _ _

@[simp] theorem cardOf_addressForIndex (c : Nat) : g.cardOf (g.addressForIndex c) = c := by
  rw [cardOf_eq_iff g (g.reservedStart_le_addressForIndex c), addressForIndex_succ]
  have := g.nWords_pos
  omega

theorem cardOf_mono {p q : Nat} (hpq : p ≤ q) : g.cardOf p ≤ g.cardOf q := by
  rw [cardOf_eq, cardOf_eq]
  exact Nat.div_le_div_right (by omega)

theorem addressForIndex_cardOf_le {p : Nat} (hp : g.reservedStart ≤ p) :
    g.addressForIndex (g.cardOf p) ≤ p := ((g.cardOf_eq_iff hp).mp rfl).1

theorem lt_addressForIndex_cardOf {p : Nat} (hp : g.reservedStart ≤ p) :
    p < g.addressForIndex (g.cardOf p) + g.nWords := by
  rw [← addressForIndex_succ]
  exact ((g.cardOf_eq_iff hp).mp rfl).2

theorem nWords_dvd_reservedStart : g.nWords ∣ g.reservedStart := by
  have hstart := g.reservedStart_aligned
  rwa [← Nat.one_mul (2 ^ _), ← Nat.shiftLeft_eq] at hstart

/-- The space starts a card. -/
theorem addressForIndex_bottomCard : g.addressForIndex g.bottomCard = g.bottom := by
  have hle := g.reservedStart_le
  have hbottom : g.nWords ∣ g.bottom := by
    have haligned := g.bottom_aligned
    rwa [← Nat.one_mul (2 ^ _), ← Nat.shiftLeft_eq] at haligned
  rw [addressForIndex_eq, bottomCard, cardOf_eq,
    Nat.mul_div_cancel' (Nat.dvd_sub hbottom g.nWords_dvd_reservedStart)]
  omega

theorem isInReserved_of_mem {p : Nat} (hlow : g.bottom ≤ p) (hhigh : p < g.limit) :
    g.IsInReserved p :=
  ⟨g.heapStart_le.trans (g.reservedStart_le.trans hlow),
    lt_of_lt_of_le hhigh (g.limit_le.trans g.reservedEnd_le)⟩

/-- The cards that start in front of `q` are those up to that of the word before it. -/
theorem addressForIndex_lt_iff_le_cardOf {c q : Nat} (hq : g.reservedStart < q) :
    g.addressForIndex c < q ↔ c ≤ g.cardOf (q - 1) := by
  have hle := g.addressForIndex_cardOf_le (by omega : g.reservedStart ≤ q - 1)
  have hlt := g.lt_addressForIndex_cardOf (by omega : g.reservedStart ≤ q - 1)
  rw [← addressForIndex_succ] at hlt
  constructor
  · intro hc
    have hnext : g.addressForIndex c < g.addressForIndex (g.cardOf (q - 1) + 1) := by omega
    exact Nat.lt_succ_iff.mp (g.addressForIndex_lt_iff.mp hnext)
  · intro hc
    have := g.addressForIndex_le_iff.mpr hc
    omega

/-- Clearing the low bits of an address gives the address of its card. -/
theorem byteAddr_sub_mod {p : Nat} (hp : g.reservedStart ≤ p) :
    g.byteAddr p - g.byteAddr p % 2 ^ logN = g.byteAddr (g.addressForIndex (g.cardOf p)) := by
  obtain ⟨k, hk⟩ := g.nWords_dvd_reservedStart
  rw [addressForIndex_eq, cardOf_eq, byteAddr, byteAddr, logN]
  rcases g.size_cases with ⟨-, hn, hw⟩ | ⟨-, hn, hw⟩ <;>
  · rw [hn] at hk ⊢
    rw [hw]
    omega

theorem byteAddr_le_byteAddr_iff {p q : Nat} : g.byteAddr p ≤ g.byteAddr q ↔ p ≤ q := by
  rw [byteAddr, byteAddr]
  rcases g.size_cases with ⟨-, -, hw⟩ | ⟨-, -, hw⟩ <;>
  · rw [hw]
    omega

end Cover

/-! ## Writing entries -/

/-- The shift is one of `int`, which is defined while its value fits. -/
def powerToCardsBack (i : Nat) : Except Failure Nat :=
  if logBase * i < 31 then .ok (1 <<< (logBase * i)) else .error .undefinedShift

variable (g : Cover)

def entryToCardsBack (entry : Nat) : Except Failure Nat := powerToCardsBack (entry - g.nWords)

/-- `set_offset_array` of one card, from two addresses. -/
def setOffsetArray (index high low : Nat) (array : Nat → Nat) : Except Failure (Nat → Nat) := do
  vmAssert (low ≤ high) "addresses out of order"
  vmAssert (high - low ≤ g.nWords) "offset too large"
  return Function.update array index ((high - low) % 2 ^ 8)

/-- `set_offset_array` of the cards from `left` to `right`. -/
def setOffsetRange (left right offset : Nat) (array : Nat → Nat) :
    Except Failure (Nat → Nat) := do
  vmAssert (left ≤ right) "indexes out of order"
  return fun card => if left ≤ card ∧ card ≤ right then offset % 2 ^ 8 else array card

/-- The rounds `i`, `i + 1`, ... of the loop, with the cards from `region` on to be written.
Returns the array and the first card beyond the last region. -/
def setRemainderLoop (startCard endCard : Nat) :
    Nat → Nat → Nat → (Nat → Nat) → Except Failure ((Nat → Nat) × Nat)
  | 0, _, region, array => .ok (array, region)
  | rounds + 1, i, region, array => do
      let back ← powerToCardsBack (i + 1)
      let reach := startCard - 1 + (back - 1)
      if endCard ≤ reach then
        let array ← setOffsetRange region endCard (g.nWords + i) array
        return (array, reach + 1)
      else
        let array ← setOffsetRange region reach (g.nWords + i) array
        setRemainderLoop startCard endCard rounds (i + 1) (reach + 1) array

/-- `set_remainder_to_point_to_start_incl`. -/
def setRemainderToPointToStartIncl (startCard endCard : Nat) (array : Nat → Nat) :
    Except Failure (Nat → Nat) :=
  if endCard < startCard then .ok array
  else do
    vmAssert (g.bottomCard < startCard) "Cannot be first card"
    vmAssert (array (startCard - 1) ≤ g.nWords) "Offset card has an unexpected value"
    let result ← setRemainderLoop g startCard endCard nPowers 0 startCard array
    vmAssert (endCard < result.2) "Sanity check"
    return result.1

def setRemainderToPointToStart (start limit : Nat) (array : Nat → Nat) :
    Except Failure (Nat → Nat) :=
  if limit ≤ start then .ok array
  else do
    let startCard := g.cardOf start
    let endCard := g.cardOf (limit - 1)
    vmAssert (start = g.addressForIndex startCard) "Precondition"
    vmAssert (limit = g.addressForIndex endCard + g.nWords) "Precondition"
    setRemainderToPointToStartIncl g startCard endCard array

/-- `do_block_internal` with `Action_single`. -/
def singleBlock (blkStart blkEnd : Nat) (array : Nat → Nat) : Except Failure (Nat → Nat) := do
  vmAssert (g.IsInReserved blkStart) "reference must be into the heap"
  vmAssert (g.IsInReserved (blkEnd - 1)) "limit must be within the heap"
  let endUi := g.byteAddr (blkEnd - 1)
  let startUi := g.byteAddr blkStart
  -- the last card boundary preceding the end of the block
  let boundaryBeforeEnd := endUi - endUi % 2 ^ logN
  if startUi ≤ boundaryBeforeEnd then
    let blkCard := g.cardOf blkStart
    let endIndex := g.cardOf (blkEnd - 1)
    let startIndex := if blkStart ≠ g.addressForIndex blkCard then blkCard + 1 else blkCard
    let boundary :=
      if blkStart ≠ g.addressForIndex blkCard then g.addressForIndex blkCard + g.nWords
      else g.addressForIndex blkCard
    vmAssert (g.addressForIndex blkCard ≤ blkStart) "blk should start at or after boundary"
    vmAssert (startIndex ≤ endIndex) "monotonicity of index_for()"
    vmAssert (g.byteAddr boundary ≤ boundaryBeforeEnd) "tautology"
    let array ← setOffsetArray g startIndex boundary blkStart array
    if startIndex < endIndex then
      setRemainderToPointToStart g (g.addressForIndex startIndex + g.nWords)
        (g.addressForIndex endIndex + g.nWords) array
    else return array
  else return array

/-! ## The entries of the remaining cards -/

variable {g}

theorem powerToCardsBack_of_lt {i : Nat} (hi : i < 8) : powerToCardsBack i = .ok (16 ^ i) := by
  rw [powerToCardsBack, if_pos (by rw [logBase]; omega), Nat.shiftLeft_eq, Nat.one_mul, logBase,
    Nat.pow_mul]

theorem powerToCardsBack_of_le {i : Nat} (hi : 8 ≤ i) :
    powerToCardsBack i = .error .undefinedShift := by
  rw [powerToCardsBack, if_neg (by rw [logBase]; omega)]

theorem entryToCardsBack_add {i : Nat} (hi : i < 8) :
    entryToCardsBack g (g.nWords + i) = .ok (16 ^ i) := by
  rw [entryToCardsBack, Nat.add_sub_cancel_left, powerToCardsBack_of_lt hi]

theorem setOffsetArray_eq {index high low : Nat} {array : Nat → Nat} (hle : low ≤ high)
    (hsub : high - low ≤ g.nWords) :
    setOffsetArray g index high low array = .ok (Function.update array index (high - low)) := by
  have := g.nWords_le
  rw [setOffsetArray, vmAssert_of hle, vmAssert_of hsub, Nat.mod_eq_of_lt (by omega)]
  rfl

theorem setOffsetRange_eq {left right offset : Nat} {array : Nat → Nat} (hle : left ≤ right)
    (hoffset : offset < 2 ^ 8) :
    setOffsetRange left right offset array =
      .ok fun card => if left ≤ card ∧ card ≤ right then offset else array card := by
  rw [setOffsetRange, vmAssert_of hle, Nat.mod_eq_of_lt hoffset]
  rfl

/-- The array with the cards after `base` up to `endCard` pointing back to `base`. -/
def pointingBack (g : Cover) (base endCard : Nat) (array : Nat → Nat) : Nat → Nat :=
  fun card =>
    if base < card ∧ card ≤ endCard then g.nWords + Nat.log 16 (card - base) else array card

theorem log_eq_of_region {i d : Nat} (hlow : 16 ^ i ≤ d) (hhigh : d < 16 ^ (i + 1)) :
    Nat.log 16 d = i := Nat.log_eq_of_pow_le_of_lt_pow hlow hhigh

theorem setRemainderLoop_eq {base endCard rounds i : Nat} {array : Nat → Nat}
    (hrounds : rounds + i = nPowers) (hlow : base + 16 ^ i ≤ endCard)
    (hhigh : endCard < base + 16 ^ 7) :
    ∃ region, endCard < region ∧
      setRemainderLoop g (base + 1) endCard rounds i (base + 16 ^ i) array =
        .ok (fun card => if base + 16 ^ i ≤ card ∧ card ≤ endCard then
          g.nWords + Nat.log 16 (card - base) else array card, region) := by
  have hi : i < 7 := (Nat.pow_lt_pow_iff_right (by decide : 1 < 16)).mp (by omega)
  have hwords := g.nWords_le
  have hpow : 16 ^ (i + 1) = 16 * 16 ^ i := by rw [Nat.pow_succ, Nat.mul_comm]
  have hpos : 0 < 16 ^ i := Nat.pow_pos (by decide)
  induction rounds generalizing i array with
  | zero => simp only [nPowers] at hrounds; omega
  | succ rounds ih =>
    rw [setRemainderLoop, powerToCardsBack_of_lt (by omega)]
    simp only [ok_bind, Nat.add_sub_cancel]
    split
    next hreach =>
      refine ⟨base + (16 ^ (i + 1) - 1) + 1, by omega, ?_⟩
      rw [setOffsetRange_eq hlow (by omega)]
      simp only [ok_bind]
      congr 2
      funext card
      split
      next hcard => rw [@log_eq_of_region i (card - base) (by omega) (by omega)]
      next => rfl
    next hreach =>
      rw [setOffsetRange_eq (by omega) (by omega)]
      simp only [ok_bind]
      have hnext : base + (16 ^ (i + 1) - 1) + 1 = base + 16 ^ (i + 1) := by omega
      rw [hnext]
      have hi' : i + 1 < 7 := (Nat.pow_lt_pow_iff_right (by decide : 1 < 16)).mp (by omega)
      obtain ⟨region, hregion, heq⟩ := @ih (i + 1) _ (by omega) (by omega) hi'
        (by rw [Nat.pow_succ, Nat.mul_comm]) (by omega)
      refine ⟨region, hregion, ?_⟩
      rw [heq]
      congr 2
      funext card
      by_cases hfar : base + 16 ^ (i + 1) ≤ card ∧ card ≤ endCard
      · rw [if_pos hfar, if_pos (by omega)]
      · rw [if_neg hfar]
        split
        next hcard =>
          rw [if_pos (by omega), @log_eq_of_region i (card - base) (by omega) (by omega)]
        next hcard => rw [if_neg (by omega)]

theorem setRemainderToPointToStartIncl_eq {base endCard : Nat} {array : Nat → Nat}
    (hbottom : g.bottomCard ≤ base) (hoffset : array base ≤ g.nWords)
    (hend : endCard < base + 16 ^ 7) :
    setRemainderToPointToStartIncl g (base + 1) endCard array =
      .ok (pointingBack g base endCard array) := by
  rw [setRemainderToPointToStartIncl]
  split
  next hempty =>
    congr 1
    funext card
    rw [pointingBack, if_neg (by omega)]
  next hcards =>
    obtain ⟨region, hregion, heq⟩ :=
      @setRemainderLoop_eq g base endCard nPowers 0 array (by omega) (by omega) hend
    simp only [Nat.pow_zero] at heq
    rw [vmAssert_of (by omega), ok_bind, Nat.add_sub_cancel, vmAssert_of hoffset, ok_bind, heq,
      ok_bind, vmAssert_of hregion, ok_bind]
    rfl

/-- Beyond the seventh region the loop needs a power that an `int` does not hold. -/
theorem setRemainderLoop_undefined {base endCard rounds i : Nat} {array : Nat → Nat}
    (hrounds : rounds + i = nPowers) (hi : i < 8) (hend : base + 16 ^ 7 ≤ endCard) :
    setRemainderLoop g (base + 1) endCard rounds i (base + 16 ^ i) array =
      .error .undefinedShift := by
  have hwords := g.nWords_le
  induction rounds generalizing i array with
  | zero => simp only [nPowers] at hrounds; omega
  | succ rounds ih =>
    rw [setRemainderLoop]
    by_cases hlast : i = 7
    · rw [powerToCardsBack_of_le (by omega)]
      rfl
    · have hpow : 16 ^ (i + 1) ≤ 16 ^ 7 := Nat.pow_le_pow_right (by decide) (by omega)
      have hgrow : 16 ^ i < 16 ^ (i + 1) := Nat.pow_lt_pow_right (by decide) (by omega)
      rw [powerToCardsBack_of_lt (by omega), ok_bind, Nat.add_sub_cancel, if_neg (by omega),
        setOffsetRange_eq (by omega) (by omega), ok_bind]
      have hnext : base + (16 ^ (i + 1) - 1) + 1 = base + 16 ^ (i + 1) := by omega
      rw [hnext]
      exact ih (by omega) (by omega)

theorem setRemainderToPointToStartIncl_undefined {base endCard : Nat} {array : Nat → Nat}
    (hbottom : g.bottomCard ≤ base) (hoffset : array base ≤ g.nWords)
    (hend : base + 16 ^ 7 ≤ endCard) :
    setRemainderToPointToStartIncl g (base + 1) endCard array = .error .undefinedShift := by
  have hloop := @setRemainderLoop_undefined g base endCard nPowers 0 array rfl (by decide) hend
  simp only [Nat.pow_zero] at hloop
  rw [setRemainderToPointToStartIncl, if_neg (by omega), vmAssert_of (by omega), ok_bind,
    Nat.add_sub_cancel, vmAssert_of hoffset, ok_bind, hloop]
  rfl

/-- With whole cards the interval of addresses is one of cards. -/
theorem setRemainderToPointToStart_cards {first last : Nat} (hle : first ≤ last)
    (array : Nat → Nat) :
    setRemainderToPointToStart g (g.addressForIndex first) (g.addressForIndex last + g.nWords)
      array = setRemainderToPointToStartIncl g first last array := by
  have hpos := g.nWords_pos
  have haddr := g.addressForIndex_le_iff.mpr hle
  have hlast : g.cardOf (g.addressForIndex last + g.nWords - 1) = last := by
    rw [Cover.cardOf_eq_iff _ (by have := g.reservedStart_le_addressForIndex last; omega),
      Cover.addressForIndex_succ]
    omega
  rw [setRemainderToPointToStart, if_neg (by omega)]
  simp only [Cover.cardOf_addressForIndex, hlast]
  rfl

/-! ## What an entry says -/

/-- An entry of a card whose first word lies in the block at `start`: the distance to the
start, or a way back to another card of the space. -/
def EntryFor (g : Cover) (start card entry : Nat) : Prop :=
  (entry < g.nWords ∧ start + entry = g.addressForIndex card) ∨
    ∃ i < 8, entry = g.nWords + i ∧ g.bottomCard + 16 ^ i ≤ card

theorem entryFor_pointingBack {base card start : Nat} (hbase : g.bottomCard ≤ base)
    (hcard : base < card) (hnear : card < base + 16 ^ 7) :
    EntryFor g start card (g.nWords + Nat.log 16 (card - base)) := by
  have hne : card - base ≠ 0 := by omega
  have hpow : 16 ^ Nat.log 16 (card - base) ≤ card - base := Nat.pow_log_le_self 16 hne
  have hlog : Nat.log 16 (card - base) < 7 := Nat.log_lt_of_lt_pow hne (by omega)
  exact Or.inr ⟨_, by omega, rfl, by omega⟩

/-- The first card that starts at `p` or behind it. -/
def firstCard (g : Cover) (p : Nat) : Nat :=
  if p ≠ g.addressForIndex (g.cardOf p) then g.cardOf p + 1 else g.cardOf p

theorem firstCard_le_iff {p card : Nat} (hp : g.reservedStart ≤ p) :
    firstCard g p ≤ card ↔ p ≤ g.addressForIndex card := by
  have hle := g.addressForIndex_cardOf_le hp
  have hlt := g.lt_addressForIndex_cardOf hp
  rw [← Cover.addressForIndex_succ] at hlt
  rw [firstCard]
  split
  next hne =>
    constructor
    · intro hcard
      have := g.addressForIndex_le_iff.mpr hcard
      omega
    · intro haddr
      have hcard : g.addressForIndex (g.cardOf p) < g.addressForIndex card := by omega
      exact g.addressForIndex_lt_iff.mp hcard
  next heq =>
    rw [← g.addressForIndex_le_iff, ← not_not.mp heq]

/-- It starts less than a card behind `p`. -/
theorem firstCard_sub_lt {p : Nat} (hp : g.reservedStart ≤ p) :
    p ≤ g.addressForIndex (firstCard g p) ∧
      g.addressForIndex (firstCard g p) - p < g.nWords := by
  have hpos := g.nWords_pos
  have hle := g.addressForIndex_cardOf_le hp
  have hlt := g.lt_addressForIndex_cardOf hp
  refine ⟨(firstCard_le_iff hp).mp le_rfl, ?_⟩
  rw [firstCard]
  split
  next hne => rw [Cover.addressForIndex_succ]; omega
  next heq => omega

/-- The array after `[start, limit)` has been recorded as a single block. -/
def recorded (g : Cover) (start limit : Nat) (array : Nat → Nat) : Nat → Nat :=
  let first := firstCard g start
  if first ≤ g.cardOf (limit - 1) then
    pointingBack g first (g.cardOf (limit - 1))
      (Function.update array first (g.addressForIndex first - start))
  else array

theorem bottomCard_le_firstCard {start : Nat} (hbottom : g.bottom ≤ start) :
    g.bottomCard ≤ firstCard g start := by
  have hfirst := (firstCard_sub_lt (g.reservedStart_le.trans hbottom)).1
  rw [← g.addressForIndex_le_iff, g.addressForIndex_bottomCard]
  omega

theorem singleBlock_eq {start limit : Nat} {array : Nat → Nat} (hbottom : g.bottom ≤ start)
    (hlt : start < limit) (hlimit : limit ≤ g.limit)
    (hcards : g.cardOf (limit - 1) < firstCard g start + 16 ^ 7) :
    singleBlock g start limit array = .ok (recorded g start limit array) := by
  have hstart := g.reservedStart_le.trans hbottom
  have hsub := firstCard_sub_lt hstart
  have hcross : g.byteAddr start ≤ g.byteAddr (g.addressForIndex (g.cardOf (limit - 1))) ↔
      firstCard g start ≤ g.cardOf (limit - 1) := by
    rw [Cover.byteAddr_le_byteAddr_iff, firstCard_le_iff hstart]
  have hboundary : (if start ≠ g.addressForIndex (g.cardOf start) then
      g.addressForIndex (g.cardOf start) + g.nWords else g.addressForIndex (g.cardOf start)) =
      g.addressForIndex (firstCard g start) := by
    rw [firstCard, ← Cover.addressForIndex_succ]
    split <;> rfl
  simp only [singleBlock, g.byteAddr_sub_mod (by omega : g.reservedStart ≤ limit - 1), hcross,
    hboundary, recorded]
  rw [← firstCard, vmAssert_of (g.isInReserved_of_mem hbottom (by omega)), ok_bind,
    vmAssert_of (g.isInReserved_of_mem (by omega) (by omega)), ok_bind]
  split
  next hfirst =>
    have haddr := g.addressForIndex_le_iff.mpr hfirst
    rw [vmAssert_of (g.addressForIndex_cardOf_le hstart), vmAssert_of hfirst,
      vmAssert_of (g.byteAddr_le_byteAddr_iff.mpr haddr),
      setOffsetArray_eq hsub.1 (by omega)]
    simp only [ok_bind]
    split
    next hmore =>
      rw [← Cover.addressForIndex_succ, setRemainderToPointToStart_cards (by omega),
        setRemainderToPointToStartIncl_eq (bottomCard_le_firstCard hbottom)
          (by rw [Function.update_self]; omega) hcards]
    next hone =>
      refine congrArg Except.ok ?_
      funext card
      rw [pointingBack, if_neg (by omega)]
  next hnone => rfl

/-- Recording a block changes only the cards that start in it. -/
theorem recorded_of_outside {start limit card : Nat} {array : Nat → Nat}
    (hbottom : g.bottom ≤ start) (hlt : start < limit)
    (hcard : g.addressForIndex card < start ∨ limit ≤ g.addressForIndex card) :
    recorded g start limit array card = array card := by
  have hstart := g.reservedStart_le.trans hbottom
  have hfirst := @firstCard_le_iff g start card hstart
  have hlast := @Cover.addressForIndex_lt_iff_le_cardOf g card limit (by omega)
  rw [recorded]
  split
  next h =>
    rw [pointingBack, if_neg (by omega), Function.update_of_ne]
    rintro rfl
    omega
  next => rfl

theorem entryFor_recorded {start limit card : Nat} {array : Nat → Nat}
    (hbottom : g.bottom ≤ start) (hlow : start ≤ g.addressForIndex card)
    (hhigh : g.addressForIndex card < limit)
    (hcards : g.cardOf (limit - 1) < firstCard g start + 16 ^ 7) :
    EntryFor g start card (recorded g start limit array card) := by
  have hstart := g.reservedStart_le.trans hbottom
  have hsub := firstCard_sub_lt hstart
  have hfirst := (firstCard_le_iff hstart).mpr hlow
  have hlast := (g.addressForIndex_lt_iff_le_cardOf (by omega : g.reservedStart < limit)).mp hhigh
  rw [recorded, if_pos (by omega), pointingBack]
  split
  next hback =>
    exact entryFor_pointingBack (bottomCard_le_firstCard hbottom) hback.1 (by omega)
  next hself =>
    obtain rfl : card = firstCard g start := by omega
    rw [Function.update_self]
    exact Or.inl ⟨hsub.2, by omega⟩

/-! ## Going from an address to its block

The loops of `block_start_unsafe`: back over the cards while the entry says so,
then forward from block to block. What they need of the table is `Sound`: the
entry of a card leads to the start of the block that holds the card's first word
or to another card of the space.
-/

open Tiling

variable (g)

/-- The loop that goes back by powers of 16 while the entry meets `again`, on
`q`, `index` and `offset`. -/
def goBackLoop (again : Nat → Bool) (array : Nat → Nat) :
    Nat → Nat → Nat → Nat → Except Failure (Nat × Nat × Nat)
  | 0, _, _, _ => .error .outOfFuel
  | fuel + 1, q, index, offset =>
    if again offset then do
      let nCardsBack ← entryToCardsBack g offset
      vmAssert (g.bottom ≤ q - g.nWords * nCardsBack) "Went below bottom!"
      goBackLoop again array fuel (q - g.nWords * nCardsBack) (index - nCardsBack)
        (array (index - nCardsBack))
    else .ok (q, index, offset)

/-- The loop of the contiguous table that goes back card by card. -/
def goBackOneLoop (array : Nat → Nat) :
    Nat → Nat → Nat → Nat → Except Failure (Nat × Nat × Nat)
  | 0, _, _, _ => .error .outOfFuel
  | fuel + 1, q, index, offset =>
    if offset = g.nWords then do
      vmAssert (g.bottom ≤ q) "Went below bottom!"
      goBackOneLoop array fuel (q - g.nWords) (index - 1) (array (index - 1))
    else .ok (q, index, offset)

/-- The loop that goes forward by the sizes of the blocks. -/
def walkLoop (blockSize : Nat → Nat) (addr : Nat) : Nat → Nat → Nat → Except Failure Nat
  | 0, _, _ => .error .outOfFuel
  | fuel + 1, q, n =>
    if g.byteAddr n ≤ addr then walkLoop blockSize addr fuel n (n + blockSize n)
    else do
      vmAssert (g.byteAddr q ≤ addr) "wrong order for current and arg"
      vmAssert (addr ≤ g.byteAddr n) "wrong order for arg and next"
      return q

/-- The block of `tiles` at `place` holds the byte at `addr`. -/
def BlockAt (tiles : List Tile) (place addr : Nat) : Prop :=
  ∃ tile, (place, tile) ∈ placed g.bottom tiles ∧ g.byteAddr place ≤ addr ∧
    addr < g.byteAddr (place + tile.length)

/-- `block_size` gives the sizes of the blocks. -/
def TrueSizes (tiles : List Tile) (blockSize : Nat → Nat) : Prop :=
  ∀ place tile, (place, tile) ∈ placed g.bottom tiles → blockSize place = tile.length

/-- The cards below `bound` have entries for the blocks that hold their first words. -/
def Sound (tiles : List Tile) (bound : Nat) (array : Nat → Nat) : Prop :=
  ∀ place tile, (place, tile) ∈ placed g.bottom tiles → ∀ card < bound,
    place ≤ g.addressForIndex card → g.addressForIndex card < place + tile.length →
    EntryFor g place card (array card)

variable {g} {tiles : List Tile} {bound : Nat} {array : Nat → Nat}

theorem Sound.entry (hsound : Sound g tiles bound array) {card : Nat} (hcard : card < bound)
    (hlow : g.bottomCard ≤ card) (htop : g.addressForIndex card < g.bottom + span tiles) :
    ∃ place tile, (place, tile) ∈ placed g.bottom tiles ∧ EntryFor g place card (array card) := by
  have hbottom : g.bottom ≤ g.addressForIndex card := by
    rw [← g.addressForIndex_bottomCard]
    exact g.addressForIndex_le_iff.mpr hlow
  obtain ⟨place, tile, hmem, hin⟩ := exists_placed_of_lt hbottom htop
  exact ⟨place, tile, hmem, hsound place tile hmem card hcard hin.1 hin.2⟩

/-- An entry from `N_words` on leads back inside the space. -/
theorem Sound.back (hsound : Sound g tiles bound array) {card : Nat} (hcard : card < bound)
    (hlow : g.bottomCard ≤ card) (htop : g.addressForIndex card < g.bottom + span tiles)
    (hback : g.nWords ≤ array card) :
    ∃ i < 8, array card = g.nWords + i ∧ g.bottomCard + 16 ^ i ≤ card := by
  obtain ⟨place, tile, -, hentry | hentry⟩ := hsound.entry hcard hlow htop
  · omega
  · exact hentry

theorem bottom_le_addressForIndex {card : Nat} (hlow : g.bottomCard ≤ card) :
    g.bottom ≤ g.addressForIndex card := by
  rw [← g.addressForIndex_bottomCard]
  exact g.addressForIndex_le_iff.mpr hlow

theorem goBackLoop_ok (hsound : Sound g tiles bound array) {again : Nat → Bool}
    (hagain : ∀ offset, again offset = true → g.nWords ≤ offset) {fuel card : Nat}
    (hcard : card < bound) (hlow : g.bottomCard ≤ card)
    (htop : g.addressForIndex card < g.bottom + span tiles) (hfuel : card < fuel) :
    ∃ card' ≤ card, g.bottomCard ≤ card' ∧ again (array card') = false ∧
      goBackLoop g again array fuel (g.addressForIndex card) card (array card) =
        .ok (g.addressForIndex card', card', array card') := by
  induction fuel generalizing card with
  | zero => omega
  | succ fuel ih =>
    rw [goBackLoop]
    split
    next hgo =>
      obtain ⟨i, hi, hentry, hreach⟩ := hsound.back hcard hlow htop (hagain _ hgo)
      have hpos : 0 < 16 ^ i := Nat.pow_pos (by decide)
      have haddr := g.addressForIndex_le_iff.mpr (by omega : card - 16 ^ i ≤ card)
      obtain ⟨card', hle, hlow', hdone, heq⟩ := @ih (card - 16 ^ i) (by omega) (by omega)
        (by omega) (by omega)
      refine ⟨card', by omega, hlow', hdone, ?_⟩
      rw [hentry, entryToCardsBack_add hi, ok_bind, g.addressForIndex_sub (by omega),
        vmAssert_of (bottom_le_addressForIndex (by omega)), ok_bind, heq]
    next hstop => exact ⟨card, le_rfl, hlow, by simpa using hstop, rfl⟩

/-- In front of a card that leads one card back there is none that leads further. -/
def OneBack (g : Cover) (bound : Nat) (array : Nat → Nat) : Prop :=
  ∀ card < bound, g.bottomCard < card → array card = g.nWords → array (card - 1) ≤ g.nWords

theorem goBackOneLoop_ok (hsound : Sound g tiles bound array) (hone : OneBack g bound array)
    {fuel card : Nat} (hcard : card < bound) (hlow : g.bottomCard ≤ card)
    (htop : g.addressForIndex card < g.bottom + span tiles) (hfuel : card < fuel)
    (hle : array card ≤ g.nWords) :
    ∃ card' ≤ card, g.bottomCard ≤ card' ∧ array card' < g.nWords ∧
      goBackOneLoop g array fuel (g.addressForIndex card) card (array card) =
        .ok (g.addressForIndex card', card', array card') := by
  induction fuel generalizing card with
  | zero => omega
  | succ fuel ih =>
    rw [goBackOneLoop]
    split
    next hgo =>
      obtain ⟨i, -, -, hreach⟩ := hsound.back hcard hlow htop (by omega)
      have hpos : 0 < 16 ^ i := Nat.pow_pos (by decide)
      have haddr := g.addressForIndex_le_iff.mpr (by omega : card - 1 ≤ card)
      have hprev := hone card hcard (by omega) hgo
      obtain ⟨card', hle', hlow', hdone, heq⟩ := @ih (card - 1) (by omega) (by omega)
        (by omega) (by omega) hprev
      refine ⟨card', by omega, hlow', hdone, ?_⟩
      have hsub := @Cover.addressForIndex_sub g card 1 (by omega)
      rw [Nat.mul_one] at hsub
      rw [vmAssert_of (bottom_le_addressForIndex hlow), ok_bind, hsub, heq]
    next hstop => exact ⟨card, le_rfl, hlow, by omega, rfl⟩

/-- Where an entry below `N_words` leads. -/
theorem Sound.start (hsound : Sound g tiles bound array) {card : Nat} (hcard : card < bound)
    (hlow : g.bottomCard ≤ card) (htop : g.addressForIndex card < g.bottom + span tiles)
    (hoffset : array card < g.nWords) :
    ∃ tile, (g.addressForIndex card - array card, tile) ∈ placed g.bottom tiles := by
  obtain ⟨place, tile, hmem, hentry | ⟨i, -, hentry, -⟩⟩ := hsound.entry hcard hlow htop
  · obtain rfl : place = g.addressForIndex card - array card := by omega
    exact ⟨tile, hmem⟩
  · omega

/-- Walking from the start of a block reaches the block that holds the address. -/
theorem walkLoop_ok {blockSize : Nat → Nat} {addr fuel q start : Nat} {tiles : List Tile}
    (hsize : ∀ place tile, (place, tile) ∈ placed start tiles → blockSize place = tile.length)
    (hlow : g.byteAddr start ≤ addr) (hhigh : addr < g.byteAddr (start + span tiles))
    (hfuel : tiles.length < fuel) :
    ∃ place tile, (place, tile) ∈ placed start tiles ∧ g.byteAddr place ≤ addr ∧
      addr < g.byteAddr (place + tile.length) ∧
      walkLoop g blockSize addr fuel q start = .ok place := by
  induction tiles generalizing start fuel q with
  | nil =>
    rw [span_nil, Nat.add_zero] at hhigh
    omega
  | cons tile tiles ih =>
    obtain ⟨fuel, rfl⟩ : ∃ k, fuel = k + 1 := ⟨fuel - 1, by omega⟩
    rw [List.length_cons] at hfuel
    rw [walkLoop, if_pos hlow, hsize start tile List.mem_cons_self]
    by_cases hnext : g.byteAddr (start + tile.length) ≤ addr
    · rw [span_cons, ← Nat.add_assoc] at hhigh
      obtain ⟨place, last, hmem, hin, hlt, heq⟩ := @ih fuel start (start + tile.length)
        (fun place tile hmem => hsize place tile (List.mem_cons_of_mem _ hmem)) hnext hhigh
        (by omega)
      exact ⟨place, last, List.mem_cons_of_mem _ hmem, hin, hlt, heq⟩
    · obtain ⟨fuel, rfl⟩ : ∃ k, fuel = k + 1 := ⟨fuel - 1, by omega⟩
      refine ⟨start, tile, List.mem_cons_self, hlow, by omega, ?_⟩
      rw [walkLoop, if_neg hnext, vmAssert_of hlow, vmAssert_of (by omega)]
      rfl

theorem blockAt_unique {place place' addr : Nat} (h : BlockAt g tiles place addr)
    (h' : BlockAt g tiles place' addr) : place = place' := by
  obtain ⟨tile, hmem, hlow, hhigh⟩ := h
  obtain ⟨tile', hmem', hlow', hhigh'⟩ := h'
  rw [Cover.byteAddr_le_iff] at hlow hlow'
  rw [Cover.lt_byteAddr_iff] at hhigh hhigh'
  rcases placed_apart hmem hmem' with heq | hapart | hapart
  · exact (Prod.mk.inj heq).1
  · omega
  · omega

theorem BlockAt.lt_span {place addr : Nat} (h : BlockAt g tiles place addr) :
    addr / g.heapWordSize < g.bottom + span tiles := by
  obtain ⟨tile, hmem, -, hhigh⟩ := h
  have hbounds := mem_placed_bounds hmem
  rw [Cover.lt_byteAddr_iff] at hhigh
  omega

theorem BlockAt.bottom_le {place addr : Nat} (h : BlockAt g tiles place addr) :
    g.bottom ≤ addr / g.heapWordSize := by
  obtain ⟨tile, hmem, hlow, -⟩ := h
  have hbounds := mem_placed_bounds hmem
  rw [Cover.byteAddr_le_iff] at hlow
  omega

/-- From a card at or before the address whose entry is an offset, the walk finds the block. -/
theorem walkLoop_from_card (hsound : Sound g tiles bound array) {blockSize : Nat → Nat}
    (hsize : TrueSizes g tiles blockSize) {card place addr fuel q : Nat} (hcard : card < bound)
    (hlow : g.bottomCard ≤ card) (hoffset : array card < g.nWords)
    (haddr : g.addressForIndex card ≤ addr / g.heapWordSize) (hblock : BlockAt g tiles place addr)
    (hfuel : tiles.length < fuel) :
    walkLoop g blockSize addr fuel q (g.addressForIndex card - array card) = .ok place := by
  have htop := hblock.lt_span
  obtain ⟨tile, hmem⟩ := hsound.start hcard hlow (by omega) hoffset
  obtain ⟨left, right, rfl, hstart⟩ := mem_placed_split hmem
  rw [hstart]
  have hright : ∀ p t, (p, t) ∈ placed (g.bottom + span left) (tile :: right) →
      (p, t) ∈ placed g.bottom (left ++ tile :: right) := by
    intro p t hpt
    rw [placed_append]
    exact List.mem_append_right _ hpt
  rw [List.length_append] at hfuel
  rw [span_append, ← Nat.add_assoc] at htop
  obtain ⟨found, last, hfound, hin, hlt, heq⟩ := @walkLoop_ok g blockSize addr fuel q
    (g.bottom + span left) (tile :: right) (fun p t hpt => hsize p t (hright p t hpt))
    (by rw [Cover.byteAddr_le_iff]; omega) (by rw [Cover.lt_byteAddr_iff]; exact htop)
    (by omega)
  rw [heq, blockAt_unique ⟨last, hright _ _ hfound, hin, hlt⟩ hblock]

/-! ## Three covers -/

/-- A space of 64-bit words from the second card on. -/
def ContigTable.largeCover : Cover where
  logHeapWordSize := 3
  wordSize_cases := Or.inr rfl
  heapStart := 64
  heapEnd := 2 ^ 40
  reservedStart := 64
  reservedEnd := 2 ^ 40
  bottom := 128
  limit := 2 ^ 40
  heapStart_pos := by decide
  heapStart_le := by decide
  reservedEnd_le := by decide
  reservedStart_le := by decide
  bottom_lt := by decide
  limit_le := by decide
  reservedStart_aligned := by decide
  bottom_aligned := by decide

/-- A space of twenty cards. -/
def NonContigTable.smallCover : Cover where
  logHeapWordSize := 3
  wordSize_cases := Or.inr rfl
  heapStart := 64
  heapEnd := 2048
  reservedStart := 64
  reservedEnd := 2048
  bottom := 64
  limit := 1344
  heapStart_pos := by decide
  heapStart_le := by decide
  reservedEnd_le := by decide
  reservedStart_le := by decide
  bottom_lt := by decide
  limit_le := by decide
  reservedStart_aligned := by decide
  bottom_aligned := by decide

/-- A space of five hundred cards. -/
def NonContigTable.splitCover : Cover where
  logHeapWordSize := 3
  wordSize_cases := Or.inr rfl
  heapStart := 64
  heapEnd := 32064
  reservedStart := 64
  reservedEnd := 32064
  bottom := 64
  limit := 32064
  heapStart_pos := by decide
  heapStart_le := by decide
  reservedEnd_le := by decide
  reservedStart_le := by decide
  bottom_lt := by decide
  limit_le := by decide
  reservedStart_aligned := by decide
  bottom_aligned := by decide

end BlockOffset

end HotSpot
