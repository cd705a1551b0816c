import HotSpot.Lib.Runs
import HotSpot.Memory.BlockOffsetTable
import Mathlib

/-! # The table of a non-contiguous space

The space is partitioned into blocks. A block that neighbours were merged into is
recorded anew with `single_block`; when a block is split, `split_block` rewrites
only some of the cards of the suffix. The cards it leaves alone go back by as much
as before, which may lead in front of the suffix, even to another block.
-/

namespace HotSpot

namespace BlockOffset

open Tiling

/-- `BlockOffsetArrayNonContigSpace`. -/
structure NonContigTable where
  array : Nat → Nat
  unallocatedBlock : Nat

namespace NonContigTable

variable (g : Cover)

/-- The constructor, on memory that holds `raw`. -/
def construct (raw : Nat → Nat) : Except Failure NonContigTable := do
  let array ← setRemainderToPointToStart g (g.bottom + g.nWords) g.limit raw
  return ⟨Function.update array 0 0, g.bottom⟩

def singleBlock (blkStart blkEnd : Nat) (t : NonContigTable) : Except Failure NonContigTable := do
  let array ← BlockOffset.singleBlock g blkStart blkEnd t.array
  return { t with array }

/-- `alloc_block`, with the flag `BlockOffsetArrayUseUnallocatedBlock`. -/
def allocBlock (useUnallocatedBlock : Bool) (blkStart blkEnd : Nat) (t : NonContigTable) :
    Except Failure NonContigTable := do
  vmAssert (blkStart ≠ 0 ∧ blkStart < blkEnd) "phantom block"
  let t ← singleBlock g blkStart blkEnd t
  if useUnallocatedBlock then
    return { t with unallocatedBlock := max t.unallocatedBlock blkEnd }
  else return t

section Split

variable (suffIndex endIndex numPrefCards : Nat)

/-- The loop of `split_block` up to the first power above the number of cards of the prefix.
Returns `more`, `i` and the array. -/
def splitFirstLoop : Nat → Nat → (Nat → Nat) → Except Failure (Bool × Nat × (Nat → Nat))
  | 0, i, array => .ok (true, i, array)
  | rounds + 1, i, array => do
      let backBy ← powerToCardsBack i
      let rightIndex := suffIndex + backBy - 1
      let leftIndex := rightIndex - numPrefCards + 1
      let last := endIndex - 1 ≤ rightIndex
      let rightIndex := if last then endIndex - 1 else rightIndex
      if numPrefCards < backBy then
        if leftIndex ≤ rightIndex then
          let array ← setOffsetRange leftIndex rightIndex (g.nWords + i - 1) array
          return (!last, i + 1, array)
        else return (false, i + 1, array)
      else if last then return (false, i + 1, array)
      else splitFirstLoop rounds (i + 1) array

/-- The loop for the powers after that. -/
def splitRestLoop : Nat → Nat → (Nat → Nat) → Except Failure (Nat → Nat)
  | 0, _, array => .ok array
  | rounds + 1, i, array => do
      let backBy ← powerToCardsBack i
      let rightIndex := suffIndex + backBy - 1
      let leftIndex := rightIndex - numPrefCards + 1
      if endIndex - 1 ≤ rightIndex then
        if endIndex - 1 < leftIndex then return array
        else
          vmAssert (leftIndex ≤ endIndex - 1) "Error"
          setOffsetRange leftIndex (endIndex - 1) (g.nWords + i - 1) array
      else
        vmAssert (leftIndex ≤ rightIndex) "Error"
        let array ← setOffsetRange leftIndex rightIndex (g.nWords + i - 1) array
        splitRestLoop rounds (i + 1) array

end Split

def splitBlock (blk blkSize leftBlkSize : Nat) (t : NonContigTable) :
    Except Failure NonContigTable := do
  vmAssert (0 < blkSize) "Should be positive"
  vmAssert (0 < leftBlkSize) "Should be positive"
  vmAssert (leftBlkSize < blkSize) "Not a split"
  let suffAddr := blk + leftBlkSize
  let endAddr := blk + blkSize
  let prefIndex :=
    if g.addressForIndex (g.cardOf blk) ≠ blk then g.cardOf blk + 1 else g.cardOf blk
  let suffIndex :=
    if g.addressForIndex (g.cardOf suffAddr) ≠ suffAddr then g.cardOf suffAddr + 1
    else g.cardOf suffAddr
  let endIndex := g.cardOf (endAddr - 1) + 1
  let numPrefCards := suffIndex - prefIndex
  let numSuffCards := endIndex - suffIndex
  if 0 < numSuffCards then
    let array ← setOffsetArray g suffIndex (g.addressForIndex suffIndex) suffAddr t.array
    if 0 < numPrefCards then
      if numSuffCards ≤ numPrefCards then
        let array ← setRemainderToPointToStartIncl g (suffIndex + 1) (endIndex - 1) array
        return { t with array }
      else
        let array ← setRemainderToPointToStartIncl g (suffIndex + 1)
          (suffIndex + numPrefCards - 1) array
        let first ← splitFirstLoop g suffIndex endIndex numPrefCards (nPowers - 1) 1 array
        if first.1 then
          let array ← splitRestLoop g suffIndex endIndex numPrefCards (nPowers - first.2.1)
            first.2.1 first.2.2
          return { t with array }
        else return { t with array := first.2.2 }
    else return { t with array }
  else return t

def blockStartUnsafe (useUnallocatedBlock : Bool) (blockSize : Nat → Nat) (fuel : Nat)
    (t : NonContigTable) (addr : Nat) : Except Failure Nat := do
  vmAssert (g.byteAddr g.bottom ≤ addr ∧ addr < g.byteAddr g.limit)
    "addr must be covered by this Array"
  if useUnallocatedBlock ∧ g.byteAddr t.unallocatedBlock ≤ addr then
    vmAssert (t.unallocatedBlock < g.limit) "tautology (see above)"
    return t.unallocatedBlock
  else
    let index := g.indexFor addr
    let last ← goBackLoop g (fun offset => g.nWords ≤ offset) t.array fuel
      (g.addressForIndex index) index (t.array index)
    vmAssert (last.2.2 < g.nWords) "offset too large"
    walkLoop g blockSize addr fuel (last.1 - last.2.2) (last.1 - last.2.2)

/-! ## What splitting a block writes -/

/-- The entry leads back to another card of the space. -/
def BackEntry (g : Cover) (card entry : Nat) : Prop :=
  ∃ i < 8, entry = g.nWords + i ∧ g.bottomCard + 16 ^ i ≤ card

/-- `array'` differs from `array` only in cards from `first` to `last`, which lead back. -/
def Patched (g : Cover) (first last : Nat) (array array' : Nat → Nat) : Prop :=
  ∀ card, array' card = array card ∨
    (first ≤ card ∧ card ≤ last ∧ BackEntry g card (array' card))

variable {g} {first last : Nat} {array array' : Nat → Nat}

theorem Patched.refl : Patched g first last array array := fun _ => Or.inl rfl

theorem Patched.trans {array'' : Nat → Nat} (h : Patched g first last array array')
    (h' : Patched g first last array' array'') : Patched g first last array array'' := by
  intro card
  rcases h' card with heq | hback
  · rw [heq]
    exact h card
  · exact Or.inr hback

theorem patched_pointingBack {base endCard : Nat} (hbase : g.bottomCard ≤ base)
    (hend : endCard ≤ last) (hnear : endCard < base + 16 ^ 7) :
    Patched g (base + 1) last array (pointingBack g base endCard array) := by
  intro card
  by_cases hcard : base < card ∧ card ≤ endCard
  · right
    have hlog : Nat.log 16 (card - base) < 7 := Nat.log_lt_of_lt_pow (by omega) (by omega)
    have hpow : 16 ^ Nat.log 16 (card - base) ≤ card - base :=
      Nat.pow_log_le_self 16 (by omega)
    refine ⟨by omega, by omega, Nat.log 16 (card - base), by omega, ?_, by omega⟩
    rw [pointingBack, if_pos hcard]
  · exact Or.inl (if_neg hcard)

section Split

variable {suffIndex endIndex numPrefCards : Nat}

/-- What the first loop writes: the last cards in front of the first power above the number of
cards of the prefix. -/
def firstPatch (g : Cover) (suffIndex endIndex numPrefCards : Nat) (array : Nat → Nat) :
    Nat → Nat :=
  fun card =>
    if suffIndex + 16 ^ (Nat.log 16 numPrefCards + 1) ≤ card + numPrefCards ∧
        card < suffIndex + 16 ^ (Nat.log 16 numPrefCards + 1) ∧ card < endIndex then
      g.nWords + Nat.log 16 numPrefCards
    else array card

/-- What the other writes the loops make: the last cards of the power blocks from the `i`-th
on. -/
def restPatch (g : Cover) (suffIndex endIndex numPrefCards i : Nat) (array : Nat → Nat) :
    Nat → Nat :=
  fun card =>
    if suffIndex + 16 ^ i ≤ card ∧ card < endIndex ∧
        16 ^ (Nat.log 16 (card - suffIndex) + 1) ≤ card - suffIndex + numPrefCards then
      g.nWords + Nat.log 16 (card - suffIndex)
    else array card

theorem splitFirstLoop_eq (hsome : 0 < numPrefCards) (hmany : suffIndex + numPrefCards < endIndex)
    (hcards : endIndex ≤ suffIndex + 16 ^ 7) {rounds i : Nat} (hrounds : rounds + i = nPowers)
    (hlow : 1 ≤ i) (hpow : 16 ^ (i - 1) ≤ numPrefCards) :
    splitFirstLoop g suffIndex endIndex numPrefCards rounds i array =
      .ok (!decide (endIndex ≤ suffIndex + 16 ^ (Nat.log 16 numPrefCards + 1)),
        Nat.log 16 numPrefCards + 2, firstPatch g suffIndex endIndex numPrefCards array) := by
  have hwords := g.nWords_le
  induction rounds generalizing i with
  | zero =>
    have hmono : 16 ^ 7 ≤ 16 ^ (i - 1) := by
      rw [nPowers] at hrounds
      exact Nat.pow_le_pow_right (by decide) (by omega)
    omega
  | succ rounds ih =>
    have hnext : 16 ^ (i - 1 + 1) = 16 ^ (i - 1) * 16 := Nat.pow_succ ..
    rw [Nat.sub_add_cancel hlow] at hnext
    have hi : i < 8 := by
      have hlt : 16 ^ (i - 1) < 16 ^ 7 := by omega
      have := (Nat.pow_lt_pow_iff_right (by decide : 1 < 16)).mp hlt
      omega
    rw [splitFirstLoop, powerToCardsBack_of_lt hi]
    simp only [ok_bind]
    by_cases hbig : numPrefCards < 16 ^ i
    · have hlog : Nat.log 16 numPrefCards = i - 1 :=
        log_eq_of_region hpow (by rwa [Nat.sub_add_cancel hlow])
      rw [if_pos hbig]
      have hindex : i - 1 + 1 = i := Nat.sub_add_cancel hlow
      have hexp : i - 1 + 2 = i + 1 := by omega
      have hpatch : ∀ right, (∀ card, card ≤ right ↔ card < suffIndex + 16 ^ i ∧
          card < endIndex) → (fun card => if suffIndex + 16 ^ i - 1 - numPrefCards + 1 ≤ card ∧
            card ≤ right then g.nWords + (i - 1) else array card) =
            firstPatch g suffIndex endIndex numPrefCards array := by
        intro right hright
        funext card
        rw [firstPatch, hlog, hindex]
        have hle : suffIndex + 16 ^ i - 1 - numPrefCards + 1 ≤ card ↔
            suffIndex + 16 ^ i ≤ card + numPrefCards := by omega
        simp only [hle, hright card]
      by_cases hend : endIndex ≤ suffIndex + 16 ^ i
      · have hlast : endIndex - 1 ≤ suffIndex + 16 ^ i - 1 := by omega
        simp only [hlast, if_true, hlog, hindex, hexp, hend, decide_true, Bool.not_true]
        split
        next hle =>
          rw [Nat.add_sub_assoc hlow, setOffsetRange_eq hle (by omega), ok_bind,
            hpatch (endIndex - 1) fun card => by omega]
          rfl
        next hempty =>
          have hnone : firstPatch g suffIndex endIndex numPrefCards array = array := by
            funext card
            rw [firstPatch, hlog, hindex, if_neg (by omega)]
          rw [hnone]
          rfl
      · have hlast : ¬endIndex - 1 ≤ suffIndex + 16 ^ i - 1 := by omega
        have hle : suffIndex + 16 ^ i - 1 - numPrefCards + 1 ≤ suffIndex + 16 ^ i - 1 := by omega
        simp only [hlast, if_false, hlog, hindex, hexp, hend, decide_false, Bool.not_false]
        rw [if_pos hle, Nat.add_sub_assoc hlow, setOffsetRange_eq hle (by omega), ok_bind,
          hpatch (suffIndex + 16 ^ i - 1) fun card => by omega]
        rfl
    · have hlast : ¬endIndex - 1 ≤ suffIndex + 16 ^ i - 1 := by omega
      rw [if_neg hbig, if_neg hlast]
      refine ih (by omega) (by omega) ?_
      rw [Nat.add_sub_cancel]
      omega

theorem splitRestLoop_eq (hsome : 0 < numPrefCards) (hcards : endIndex ≤ suffIndex + 16 ^ 7)
    {rounds i : Nat} (hrounds : rounds + (i + 1) = nPowers) (hi : i ≤ 6)
    (hpow : numPrefCards < 16 ^ i) :
    splitRestLoop g suffIndex endIndex numPrefCards rounds (i + 1) array =
      .ok (restPatch g suffIndex endIndex numPrefCards i array) := by
  have hwords := g.nWords_le
  induction rounds generalizing i array with
  | zero => simp only [nPowers] at hrounds; omega
  | succ rounds ih =>
    have hnext : 16 ^ (i + 1) = 16 ^ i * 16 := Nat.pow_succ ..
    -- the cards of this power block that are written
    have hblock : ∀ card, card < suffIndex + 16 ^ (i + 1) →
        restPatch g suffIndex endIndex numPrefCards i array card =
          if suffIndex + 16 ^ (i + 1) - 1 - numPrefCards + 1 ≤ card ∧ card < endIndex then
            g.nWords + i
          else array card := by
      intro card hcard
      rw [restPatch]
      by_cases hlow : suffIndex + 16 ^ i ≤ card
      · rw [@log_eq_of_region i (card - suffIndex) (by omega) (by omega)]
        have hiff : (suffIndex + 16 ^ i ≤ card ∧ card < endIndex ∧
            16 ^ (i + 1) ≤ card - suffIndex + numPrefCards) ↔
            (suffIndex + 16 ^ (i + 1) - 1 - numPrefCards + 1 ≤ card ∧ card < endIndex) := by
          omega
        simp only [hiff]
      · rw [if_neg (by omega), if_neg (by omega)]
    have hindex : g.nWords + (i + 1) - 1 = g.nWords + i := by omega
    rw [splitRestLoop, powerToCardsBack_of_lt (by omega)]
    simp only [ok_bind, hindex]
    by_cases hend : endIndex ≤ suffIndex + 16 ^ (i + 1)
    · rw [if_pos (by omega)]
      split
      next hempty =>
        refine congrArg Except.ok (funext fun card => ?_)
        by_cases hcard : card < suffIndex + 16 ^ (i + 1)
        · rw [hblock card hcard, if_neg (by omega)]
        · rw [restPatch, if_neg (by omega)]
      next hle =>
        rw [vmAssert_of (not_lt.mp hle), ok_bind, setOffsetRange_eq (not_lt.mp hle) (by omega)]
        refine congrArg Except.ok (funext fun card => ?_)
        by_cases hcard : card < suffIndex + 16 ^ (i + 1)
        · rw [hblock card hcard]
          have hiff : card ≤ endIndex - 1 ↔ card < endIndex := by omega
          simp only [hiff]
        · rw [restPatch, if_neg (by omega), if_neg (by omega)]
    · have hi' : i + 1 ≤ 6 := by
        have hlt : 16 ^ (i + 1) < 16 ^ 7 := by omega
        have := (Nat.pow_lt_pow_iff_right (by decide : 1 < 16)).mp hlt
        omega
      rw [if_neg (by omega), vmAssert_of (by omega), ok_bind,
        setOffsetRange_eq (by omega) (by omega),
        ok_bind, ih (by omega) hi' (by omega)]
      refine congrArg Except.ok (funext fun card => ?_)
      by_cases hcard : card < suffIndex + 16 ^ (i + 1)
      · rw [hblock card hcard, restPatch, if_neg (by omega)]
        have hiff : (suffIndex + 16 ^ (i + 1) - 1 - numPrefCards + 1 ≤ card ∧
            card ≤ suffIndex + 16 ^ (i + 1) - 1) ↔
            (suffIndex + 16 ^ (i + 1) - 1 - numPrefCards + 1 ≤ card ∧ card < endIndex) := by
          omega
        simp only [hiff]
      · have hlow : (suffIndex + 16 ^ (i + 1) ≤ card) = (suffIndex + 16 ^ i ≤ card) :=
          propext (by omega)
        have hout : ¬(suffIndex + 16 ^ (i + 1) - 1 - numPrefCards + 1 ≤ card ∧
            card ≤ suffIndex + 16 ^ (i + 1) - 1) := by omega
        simp only [restPatch, hlow, if_neg hout]

theorem patched_firstPatch (hpref : g.bottomCard + numPrefCards ≤ suffIndex)
    (hsome : 0 < numPrefCards) (hfew : numPrefCards < 16 ^ 7) :
    Patched g (suffIndex + 1) (endIndex - 1) array
      (firstPatch g suffIndex endIndex numPrefCards array) := by
  intro card
  rw [firstPatch]
  split
  next hcard =>
    have hlog : Nat.log 16 numPrefCards < 7 := Nat.log_lt_of_lt_pow (by omega) hfew
    have hpow : 16 ^ Nat.log 16 numPrefCards ≤ numPrefCards := Nat.pow_log_le_self 16 (by omega)
    have hnext : numPrefCards < 16 ^ (Nat.log 16 numPrefCards + 1) :=
      Nat.lt_pow_succ_log_self (by decide) _
    exact Or.inr ⟨by omega, by omega, _, by omega, rfl, by omega⟩
  next => exact Or.inl rfl

theorem patched_restPatch {i : Nat} (hbottom : g.bottomCard ≤ suffIndex)
    (hcards : endIndex ≤ suffIndex + 16 ^ 7) :
    Patched g (suffIndex + 1) (endIndex - 1) array
      (restPatch g suffIndex endIndex numPrefCards i array) := by
  intro card
  rw [restPatch]
  split
  next hcard =>
    have hpos : 0 < 16 ^ i := Nat.pow_pos (by decide)
    have hlog : Nat.log 16 (card - suffIndex) < 7 := Nat.log_lt_of_lt_pow (by omega) (by omega)
    have hpow : 16 ^ Nat.log 16 (card - suffIndex) ≤ card - suffIndex :=
      Nat.pow_log_le_self 16 (by omega)
    exact Or.inr ⟨by omega, by omega, _, by omega, rfl, by omega⟩
  next => exact Or.inl rfl

end Split

/-- The space has fewer than `2 ^ 28` cards. -/
def FewCards (g : Cover) : Prop := g.cardOf (g.limit - 1) - g.bottomCard + 1 < 2 ^ 28

instance : Decidable (FewCards g) := inferInstanceAs (Decidable (_ < _))

theorem FewCards.cardOf_lt (hfew : FewCards g) {limit : Nat} (hlimit : limit ≤ g.limit) :
    g.cardOf (limit - 1) + 1 < g.bottomCard + 16 ^ 7 := by
  have hmono := g.cardOf_mono (by omega : limit - 1 ≤ g.limit - 1)
  rw [FewCards] at hfew
  omega

theorem firstCard_eq (p : Nat) :
    (if g.addressForIndex (g.cardOf p) ≠ p then g.cardOf p + 1 else g.cardOf p) =
      firstCard g p := by
  simp only [firstCard, ne_comm]

theorem firstCard_mono {p q : Nat} (hp : g.reservedStart ≤ p) (hpq : p ≤ q) :
    firstCard g p ≤ firstCard g q :=
  (firstCard_le_iff hp).mpr (hpq.trans (firstCard_sub_lt (hp.trans hpq)).1)

/-- The cards after a block is split whose parts start the cards from `pref` and from `suff` up to
`last`. -/
def splitCards (g : Cover) (pref suff last offset : Nat) (array : Nat → Nat) : Nat → Nat :=
  if last < suff then array
  else if suff = pref then Function.update array suff offset
  else if last + 1 - suff ≤ suff - pref then
    pointingBack g suff last (Function.update array suff offset)
  else
    restPatch g suff (last + 1) (suff - pref) (Nat.log 16 (suff - pref) + 1)
      (firstPatch g suff (last + 1) (suff - pref)
        (pointingBack g suff (suff + (suff - pref) - 1) (Function.update array suff offset)))

theorem splitBlock_eq {blk blkSize leftBlkSize : Nat} {t : NonContigTable} (hfew : FewCards g)
    (hbottom : g.bottom ≤ blk) (hleft : 0 < leftBlkSize) (hlt : leftBlkSize < blkSize)
    (hlimit : blk + blkSize ≤ g.limit) :
    splitBlock g blk blkSize leftBlkSize t = .ok { t with
      array := splitCards g (firstCard g blk) (firstCard g (blk + leftBlkSize))
        (g.cardOf (blk + blkSize - 1))
        (g.addressForIndex (firstCard g (blk + leftBlkSize)) - (blk + leftBlkSize)) t.array } := by
  have hstart := g.reservedStart_le.trans hbottom
  have hcards := hfew.cardOf_lt hlimit
  have hpref := bottomCard_le_firstCard hbottom
  have hmono := firstCard_mono hstart (by omega : blk ≤ blk + leftBlkSize)
  have hsub := firstCard_sub_lt (by omega : g.reservedStart ≤ blk + leftBlkSize)
  rw [splitBlock, vmAssert_of (by omega), vmAssert_of hleft, vmAssert_of hlt]
  simp only [ok_bind, firstCard_eq]
  generalize firstCard g (blk + leftBlkSize) = suff at *
  generalize firstCard g blk = pref at *
  generalize g.cardOf (blk + blkSize - 1) = last at *
  rw [splitCards]
  by_cases hsuff : last < suff
  · rw [if_neg (by omega), if_pos hsuff]
    rfl
  · rw [if_pos (by omega), if_neg hsuff, setOffsetArray_eq hsub.1 hsub.2.le, ok_bind]
    have hoffset :
        Function.update t.array suff (g.addressForIndex suff - (blk + leftBlkSize)) suff ≤
        g.nWords := by
      rw [Function.update_self]
      exact hsub.2.le
    generalize Function.update t.array suff (g.addressForIndex suff - (blk + leftBlkSize)) =
      updated at *
    by_cases hnone : suff = pref
    · rw [if_neg (by omega), if_pos hnone]
      rfl
    · rw [if_pos (by omega), if_neg hnone]
      by_cases hfewSuff : last + 1 - suff ≤ suff - pref
      · rw [if_pos hfewSuff, if_pos hfewSuff, Nat.add_sub_cancel,
          setRemainderToPointToStartIncl_eq (by omega) hoffset (by omega)]
        rfl
      · rw [if_neg hfewSuff, if_neg hfewSuff,
          setRemainderToPointToStartIncl_eq (by omega) hoffset (by omega), ok_bind]
        generalize pointingBack g suff (suff + (suff - pref) - 1) updated = patched
        have hpow : 16 ^ (1 - 1) ≤ suff - pref := by
          rw [Nat.sub_self, Nat.pow_zero]
          omega
        have hlog : 16 ^ Nat.log 16 (suff - pref) ≤ suff - pref :=
          Nat.pow_log_le_self 16 (by omega)
        have hfirst := @splitFirstLoop_eq g patched suff (last + 1) (suff - pref) (by omega)
          (by omega) (by omega) (nPowers - 1) 1 rfl le_rfl hpow
        rw [hfirst, ok_bind]
        by_cases hend : last + 1 ≤ suff + 16 ^ (Nat.log 16 (suff - pref) + 1)
        · have hnothing : ∀ array, restPatch g suff (last + 1) (suff - pref)
              (Nat.log 16 (suff - pref) + 1) array = array := by
            intro array
            funext card
            rw [restPatch, if_neg (by omega)]
          rw [hnothing]
          simp only [hend, decide_true, Bool.not_true, Bool.false_eq_true, if_false]
          rfl
        · have hi : Nat.log 16 (suff - pref) + 1 ≤ 6 := by
            have hless : 16 ^ (Nat.log 16 (suff - pref) + 1) < 16 ^ 7 := by omega
            have := (Nat.pow_lt_pow_iff_right (by decide : 1 < 16)).mp hless
            omega
          have hrest := @splitRestLoop_eq g (firstPatch g suff (last + 1) (suff - pref) patched)
            suff (last + 1) (suff - pref) (by omega) (by omega)
            (nPowers - (Nat.log 16 (suff - pref) + 2)) (Nat.log 16 (suff - pref) + 1)
            (by rw [nPowers]; omega) hi (Nat.lt_pow_succ_log_self (by decide) _)
          simp only [hend, decide_false, Bool.not_false, if_true]
          rw [hrest]
          rfl

/-- The suffix either starts no card or has its first card set and others patched. -/
theorem splitCards_patched {pref suff last offset : Nat} (hbottom : g.bottomCard ≤ pref)
    (hpref : pref ≤ suff) (hcards : last + 1 < g.bottomCard + 16 ^ 7) :
    (last < suff ∧ splitCards g pref suff last offset array = array) ∨
      (suff ≤ last ∧ Patched g (suff + 1) last (Function.update array suff offset)
        (splitCards g pref suff last offset array)) := by
  rw [splitCards]
  generalize Function.update array suff offset = updated
  by_cases hsuff : last < suff
  · exact Or.inl ⟨hsuff, if_pos hsuff⟩
  · refine Or.inr ⟨by omega, ?_⟩
    rw [if_neg hsuff]
    split
    next => exact Patched.refl
    split
    next => exact patched_pointingBack (by omega) le_rfl (by omega)
    next =>
      have hhead : Patched g (suff + 1) last updated
          (pointingBack g suff (suff + (suff - pref) - 1) updated) :=
        patched_pointingBack (by omega) (by omega) (by omega)
      exact (hhead.trans (patched_firstPatch (by omega) (by omega) (by omega))).trans
        (patched_restPatch (by omega) (by omega))

/-! ## The table stays in step with the partition -/

section Keep

variable {left right : List Tile} {tile : Tile}

theorem mem_placed_around {start place : Nat} {mid : List Tile} :
    (place, tile) ∈ placed start (left ++ mid ++ right) ↔
      (place, tile) ∈ placed start left ∨ (place, tile) ∈ placed (start + span left) mid ∨
        (place, tile) ∈ placed (start + span left + span mid) right := by
  simp [Nat.add_assoc]

/-- Tiles of equal length may be exchanged for each other as far as the entries of the
cards outside them and inside them are right. -/
theorem sound_exchange {bound : Nat} {mid mid' : List Tile} {array' : Nat → Nat}
    (hsound : Sound g (left ++ mid ++ right) bound array) (hspan : span mid' = span mid)
    (hsame : ∀ card, g.addressForIndex card < g.bottom + span left ∨
      g.bottom + span left + span mid ≤ g.addressForIndex card → array' card = array card)
    (hnew : ∀ place tile, (place, tile) ∈ placed (g.bottom + span left) mid' → ∀ card < bound,
      place ≤ g.addressForIndex card → g.addressForIndex card < place + tile.length →
      EntryFor g place card (array' card)) :
    Sound g (left ++ mid' ++ right) bound array' := by
  intro place tile hmem card hcard hlow hhigh
  rcases mem_placed_around.mp hmem with hmem | hmem | hmem
  · have hbounds := mem_placed_bounds hmem
    rw [hsame card (by omega)]
    exact hsound place tile (mem_placed_around.mpr (Or.inl hmem)) card hcard hlow hhigh
  · exact hnew place tile hmem card hcard hlow hhigh
  · have hbounds := mem_placed_bounds hmem
    rw [hspan] at hmem hbounds
    rw [hsame card (by omega)]
    exact hsound place tile (mem_placed_around.mpr (Or.inr (Or.inr hmem))) card hcard hlow hhigh

/-- Recording the block that neighbours were merged into. -/
theorem sound_merge {bound : Nat} {mid : List Tile} (hfew : FewCards g)
    (hsound : Sound g (left ++ mid ++ right) bound array) (used : Bool) (hmid : 0 < span mid)
    (hlimit : g.bottom + span left + span mid ≤ g.limit) :
    Sound g (left ++ [⟨span mid, used⟩] ++ right) bound
      (recorded g (g.bottom + span left) (g.bottom + span left + span mid) array) := by
  have hcards := hfew.cardOf_lt hlimit
  have hfirst := bottomCard_le_firstCard (by omega : g.bottom ≤ g.bottom + span left)
  refine sound_exchange hsound (by simp) (fun card hcard => ?_)
    fun place tile hmem card _ hlow hhigh => ?_
  · exact recorded_of_outside (by omega) (by omega) hcard
  · obtain ⟨rfl, rfl⟩ : place = g.bottom + span left ∧ tile = ⟨span mid, used⟩ := by
      simpa using hmem
    exact entryFor_recorded (by omega) hlow hhigh (by omega)

/-- Splitting a block. A card of the suffix that keeps an offset would have to be its first. -/
theorem sound_split {bound pref suff : Nat} {used : Bool} (hfew : FewCards g)
    {t : NonContigTable} (hsound : Sound g (left ++ [⟨pref + suff, used⟩] ++ right) bound t.array)
    (usedPref usedSuff : Bool) (hpref : 0 < pref) (hsuff : 0 < suff)
    (hlimit : g.bottom + span left + (pref + suff) ≤ g.limit) :
    ∃ array', splitBlock g (g.bottom + span left) (pref + suff) pref t =
        .ok { t with array := array' } ∧
      Sound g (left ++ [⟨pref, usedPref⟩, ⟨suff, usedSuff⟩] ++ right) bound array' := by
  have hwrites := @splitCards_patched g t.array _ _ _
    (g.addressForIndex (firstCard g (g.bottom + span left + pref)) - (g.bottom + span left + pref))
    (bottomCard_le_firstCard (Nat.le_add_right g.bottom (span left)))
    (firstCard_mono (g.reservedStart_le.trans (Nat.le_add_right _ _))
      (Nat.le_add_right (g.bottom + span left) pref)) (hfew.cardOf_lt hlimit)
  refine ⟨_, splitBlock_eq hfew (Nat.le_add_right _ _) hpref (by omega) hlimit, ?_⟩
  generalize splitCards _ _ _ _ _ _ = array' at hwrites ⊢
  have hreserved := g.reservedStart_le
  have hspan : span [⟨pref + suff, used⟩] = pref + suff := by simp
  -- cards that do not start in the suffix keep their entries
  have hkept : ∀ card, g.addressForIndex card < g.bottom + span left + pref ∨
      g.bottom + span left + (pref + suff) ≤ g.addressForIndex card →
      array' card = t.array card := by
    intro card hcard
    rcases hwrites with ⟨-, rfl⟩ | ⟨hsome, hpatched⟩
    · rfl
    · have hfirst := @firstCard_le_iff g (g.bottom + span left + pref) card (by omega)
      have hlast := @Cover.addressForIndex_lt_iff_le_cardOf g card
        (g.bottom + span left + (pref + suff)) (by omega)
      rcases hpatched card with hsame | ⟨hlow, hhigh, -⟩
      · rw [hsame, Function.update_of_ne]
        rintro rfl
        omega
      · omega
  refine sound_exchange hsound (by simp) (fun card hcard => ?_)
    fun place tile hmem card hcard hlow hhigh => ?_
  · rw [hspan] at hcard
    exact hkept card (by omega)
  · have hold : g.bottom + span left ≤ g.addressForIndex card →
        g.addressForIndex card < g.bottom + span left + (pref + suff) →
        EntryFor g (g.bottom + span left) card (t.array card) :=
      hsound _ ⟨pref + suff, used⟩ (mem_placed_around.mpr (by simp)) card hcard
    have hcases : (place = g.bottom + span left ∧ tile = ⟨pref, usedPref⟩) ∨
        (place = g.bottom + span left + pref ∧ tile = ⟨suff, usedSuff⟩) := by
      simpa using hmem
    rcases hcases with ⟨rfl, rfl⟩ | ⟨rfl, rfl⟩
    · simp only at hhigh
      rw [hkept card (by omega)]
      exact hold hlow (by omega)
    · simp only at hhigh
      have hsub := firstCard_sub_lt (by omega : g.reservedStart ≤ g.bottom + span left + pref)
      have hfirst := (firstCard_le_iff
        (by omega : g.reservedStart ≤ g.bottom + span left + pref)).mpr hlow
      have hlast := (@Cover.addressForIndex_lt_iff_le_cardOf g card
        (g.bottom + span left + (pref + suff)) (by omega)).mp (by omega)
      rcases hwrites with ⟨hnone, -⟩ | ⟨-, hpatched⟩
      · omega
      · rcases hpatched card with hsame | ⟨-, -, hback⟩
        · rw [hsame]
          rcases Nat.eq_or_lt_of_le hfirst with rfl | hbehind
          · rw [Function.update_self]
            exact Or.inl ⟨hsub.2, by omega⟩
          · rw [Function.update_of_ne (by omega)]
            rcases hold (by omega) (by omega) with ⟨hoffset, hentry⟩ | hback
            · -- the first card of the suffix lies a whole card before this one
              have hsucc := g.addressForIndex_le_iff.mpr hbehind
              rw [Nat.succ_eq_add_one, g.addressForIndex_succ] at hsucc
              omega
            · exact Or.inr hback
        · exact Or.inr hback

end Keep

/-! ## Runs -/

/-- A partition of the space into blocks and its table, which an operation may have failed
to produce. -/
structure Space where
  table : Except Failure NonContigTable
  tiles : List Tile

/-- `single_block` for consecutive blocks, the first of them at `start`. -/
def recordBlocks (g : Cover) : Nat → List Tile → NonContigTable → Except Failure NonContigTable
  | _, [], t => .ok t
  | start, tile :: tiles, t => do
      let t ← singleBlock g start (start + tile.length) t
      recordBlocks g (start + tile.length) tiles t

/-- A space starts with every block recorded, or as the constructor leaves it. The constructor
clears entry 0, which belongs to the space at the start of the reserved region, and asserts
that the space ends a card and that the first entry is no skip beyond the card before. -/
inductive Starts (g : Cover) : Space → Prop where
  | recorded (t : NonContigTable) (tiles : List Tile) (hpos : ∀ tile ∈ tiles, 0 < tile.length)
      (hspan : g.bottom + span tiles = g.limit) :
      Starts g ⟨recordBlocks g g.bottom tiles t, tiles⟩
  | constructed (raw : Nat → Nat) (used : Bool) (hbottom : g.bottom = g.reservedStart)
      (hlimit : g.limit = g.addressForIndex (g.cardOf (g.limit - 1)) + g.nWords)
      (hraw : raw g.bottomCard ≤ g.nWords) :
      Starts g ⟨construct g raw, [⟨g.limit - g.bottom, used⟩]⟩

/-- The operations that keep partition and table in step. -/
inductive Step (g : Cover) : Space → Space → Prop where
  | single (table : Except Failure NonContigTable) (left mid right : List Tile) (used : Bool)
      (hmid : mid ≠ []) :
      Step g ⟨table, left ++ mid ++ right⟩
        ⟨table >>= singleBlock g (g.bottom + span left) (g.bottom + span left + span mid),
          left ++ [⟨span mid, used⟩] ++ right⟩
  | alloc (table : Except Failure NonContigTable) (left mid right : List Tile) (used : Bool)
      (hmid : mid ≠ []) :
      Step g ⟨table, left ++ mid ++ right⟩
        ⟨table >>= allocBlock g false (g.bottom + span left) (g.bottom + span left + span mid),
          left ++ [⟨span mid, used⟩] ++ right⟩
  | split (table : Except Failure NonContigTable) (left right : List Tile) (pref suff : Nat)
      (used usedPref usedSuff : Bool) (hpref : 0 < pref) (hsuff : 0 < suff) :
      Step g ⟨table, left ++ [⟨pref + suff, used⟩] ++ right⟩
        ⟨table >>= splitBlock g (g.bottom + span left) (pref + suff) pref,
          left ++ [⟨pref, usedPref⟩, ⟨suff, usedSuff⟩] ++ right⟩

def system (g : Cover) : TransitionSystem Space where
  init := Starts g
  step := Step g

/-- The blocks fill the space and the table leads to their starts. -/
structure InStep (g : Cover) (s : Space) : Prop where
  pos : ∀ tile ∈ s.tiles, 0 < tile.length
  full : g.bottom + span s.tiles = g.limit
  sound : ∃ t, s.table = .ok t ∧ Sound g s.tiles (g.cardOf (g.limit - 1) + 1) t.array

theorem singleBlock_of {start limit : Nat} {t : NonContigTable} (hfew : FewCards g)
    (hbottom : g.bottom ≤ start) (hlt : start < limit) (hlimit : limit ≤ g.limit) :
    singleBlock g start limit t = .ok { t with array := recorded g start limit t.array } := by
  have hcards := hfew.cardOf_lt hlimit
  have hfirst := bottomCard_le_firstCard hbottom
  rw [singleBlock, singleBlock_eq hbottom hlt hlimit (by omega)]
  rfl

/-- Blocks recorded one after the other: the table is sound for those behind `start`. -/
theorem recordBlocks_ok (hfew : FewCards g) {start : Nat} {tiles : List Tile}
    {t : NonContigTable} (hbottom : g.bottom ≤ start) (hpos : ∀ tile ∈ tiles, 0 < tile.length)
    (hlimit : start + span tiles ≤ g.limit) :
    ∃ t', recordBlocks g start tiles t = .ok t' ∧
      (∀ card, g.addressForIndex card < start → t'.array card = t.array card) ∧
      ∀ place tile, (place, tile) ∈ placed start tiles → ∀ card,
        place ≤ g.addressForIndex card → g.addressForIndex card < place + tile.length →
        EntryFor g place card (t'.array card) := by
  induction tiles generalizing start t with
  | nil => exact ⟨t, rfl, fun _ _ => rfl, fun place tile hmem => by simp at hmem⟩
  | cons tile tiles ih =>
    rw [List.forall_mem_cons] at hpos
    rw [span_cons] at hlimit
    have hcards := hfew.cardOf_lt (by omega : start + tile.length ≤ g.limit)
    have hfirst := bottomCard_le_firstCard hbottom
    rw [recordBlocks, singleBlock_of hfew hbottom (by omega) (by omega), ok_bind]
    obtain ⟨t', hrun, hsame, hentries⟩ := @ih (start + tile.length)
      { t with array := recorded g start (start + tile.length) t.array } (by omega) hpos.2
      (by omega)
    refine ⟨t', hrun, fun card hcard => ?_, fun place other hmem card hlow hhigh => ?_⟩
    · rw [hsame card (by omega)]
      exact recorded_of_outside hbottom (by omega) (Or.inl hcard)
    · rcases List.mem_cons.mp hmem with heq | hmem
      · obtain ⟨rfl, rfl⟩ := Prod.mk.inj heq
        rw [hsame card hhigh]
        exact entryFor_recorded hbottom hlow hhigh (by omega)
      · exact hentries place other hmem card hlow hhigh

theorem construct_ok (hfew : FewCards g) {raw : Nat → Nat} (hbottom : g.bottom = g.reservedStart)
    (hlimit : g.limit = g.addressForIndex (g.cardOf (g.limit - 1)) + g.nWords)
    (hraw : raw g.bottomCard ≤ g.nWords) :
    construct g raw = .ok ⟨recorded g g.bottom g.limit raw, g.bottom⟩ := by
  have hlt := g.bottom_lt
  have hcards := hfew.cardOf_lt le_rfl
  have hzero : g.bottomCard = 0 := by
    rw [Cover.bottomCard, hbottom, g.cardOf_eq, Nat.sub_self, Nat.zero_div]
  have hcard := g.addressForIndex_bottomCard
  have hfirst : firstCard g g.bottom = g.bottomCard := by
    rw [firstCard, ← Cover.bottomCard, if_neg (not_not.mpr hcard.symm)]
  have hle : g.bottomCard ≤ g.cardOf (g.limit - 1) := g.cardOf_mono (by omega)
  have hremainder : setRemainderToPointToStart g (g.bottom + g.nWords) g.limit raw =
      .ok (pointingBack g g.bottomCard (g.cardOf (g.limit - 1)) raw) := by
    rcases Nat.eq_or_lt_of_le hle with hone | hmore
    · rw [setRemainderToPointToStart, if_pos (by rw [hlimit, ← hone, hcard])]
      congr 1
      funext card
      rw [pointingBack, if_neg (by omega)]
    · have hcards' := @setRemainderToPointToStart_cards g _ _ hmore raw
      rw [Nat.succ_eq_add_one, Cover.addressForIndex_succ, hcard, ← hlimit] at hcards'
      rw [hcards', setRemainderToPointToStartIncl_eq le_rfl hraw (by omega)]
  rw [construct, hremainder, ok_bind, recorded]
  simp only [hfirst, if_pos hle, hcard, Nat.sub_self]
  refine congrArg (fun array => Except.ok (NonContigTable.mk array g.bottom)) ?_
  funext card
  rw [← hzero]
  by_cases hself : card = g.bottomCard
  · rw [hself, Function.update_self, pointingBack, if_neg (by omega), Function.update_self]
  · rw [Function.update_of_ne hself, pointingBack, pointingBack, Function.update_of_ne hself]

theorem inStep_of_starts (hfew : FewCards g) {s : Space} (hs : Starts g s) : InStep g s := by
  cases hs with
  | recorded t tiles hpos hspan =>
    obtain ⟨t', hrun, -, hentries⟩ := @recordBlocks_ok g hfew g.bottom tiles t le_rfl hpos hspan.le
    exact ⟨hpos, hspan, t', hrun, fun place tile hmem card _ => hentries place tile hmem card⟩
  | constructed raw used hbottom hlimit hraw =>
    have hlt := g.bottom_lt
    have hcards := hfew.cardOf_lt le_rfl
    refine ⟨fun tile htile => ?_, by simp only [span_cons, span_nil]; omega, _,
      construct_ok hfew hbottom hlimit hraw, fun place tile hmem card _ hlow hhigh => ?_⟩
    · obtain rfl := List.mem_singleton.mp htile
      exact Nat.sub_pos_of_lt hlt
    obtain ⟨rfl, rfl⟩ : place = g.bottom ∧ tile = ⟨g.limit - g.bottom, used⟩ := by
      simpa using hmem
    have hfirst := bottomCard_le_firstCard (le_refl g.bottom)
    exact entryFor_recorded le_rfl hlow (by simp only at hhigh; omega) (by omega)

theorem span_pos_of_ne_nil {tiles : List Tile} (hne : tiles ≠ [])
    (hpos : ∀ tile ∈ tiles, 0 < tile.length) : 0 < span tiles := by
  cases tiles with
  | nil => exact absurd rfl hne
  | cons tile tiles =>
    have := hpos tile List.mem_cons_self
    rw [span_cons]
    omega

/-- Merging neighbours keeps partition and table in step when the merged block is recorded. -/
theorem InStep.merge (hfew : FewCards g) {table : Except Failure NonContigTable}
    {left mid right : List Tile} (hs : InStep g ⟨table, left ++ mid ++ right⟩) (used : Bool)
    (hmid : mid ≠ []) :
    InStep g ⟨table >>= singleBlock g (g.bottom + span left) (g.bottom + span left + span mid),
      left ++ [⟨span mid, used⟩] ++ right⟩ := by
  obtain ⟨hpos, hfull, t, ht, hsound⟩ := hs
  simp only at hpos hfull ht hsound
  have hspan := span_pos_of_ne_nil hmid fun tile htile => hpos tile (by simp [htile])
  simp only [span_append] at hfull
  refine ⟨?_, ?_, ⟨recorded g (g.bottom + span left) (g.bottom + span left + span mid) t.array,
    t.unallocatedBlock⟩, ?_, sound_merge hfew hsound used hspan (by omega)⟩
  · intro tile htile
    simp only [List.append_assoc, List.mem_append, List.mem_singleton] at htile hpos
    rcases htile with htile | rfl | htile
    · exact hpos tile (Or.inl htile)
    · exact hspan
    · exact hpos tile (Or.inr (Or.inr htile))
  · simp only [span_append, span_cons, span_nil]
    omega
  · rw [ht, ok_bind, singleBlock_of hfew (by omega) (by omega) (by omega)]

/-- With the flag off `alloc_block` only records the block. -/
theorem allocBlock_eq {start limit : Nat} (hbottom : g.bottom ≤ start) (hlt : start < limit) :
    allocBlock g false start limit = singleBlock g start limit := by
  have hpos := g.heapStart_pos
  have hheap := g.heapStart_le
  have hreserved := g.reservedStart_le
  funext t
  rw [allocBlock, vmAssert_of ⟨by omega, hlt⟩, ok_bind]
  cases singleBlock g start limit t <;> rfl

theorem InStep.step (hfew : FewCards g) {s next : Space} (hs : InStep g s)
    (hstep : Step g s next) : InStep g next := by
  cases hstep with
  | single table left mid right used hmid => exact hs.merge hfew used hmid
  | alloc table left mid right used hmid =>
    have hspan := span_pos_of_ne_nil hmid fun tile htile => hs.pos tile (by simp [htile])
    rw [allocBlock_eq (by omega) (by omega)]
    exact hs.merge hfew used hmid
  | split table left right pref suff used usedPref usedSuff hpref hsuff =>
    obtain ⟨hpos, hfull, t, ht, hsound⟩ := hs
    simp only at hpos hfull ht hsound
    simp only [span_append, span_cons, span_nil] at hfull
    obtain ⟨array', heq, hsound'⟩ := sound_split hfew hsound usedPref usedSuff hpref hsuff
      (by omega)
    refine ⟨?_, ?_, { t with array := array' }, ?_, hsound'⟩
    · intro tile htile
      simp only [List.append_assoc, List.mem_append, List.mem_cons, List.not_mem_nil,
        or_false] at htile hpos
      rcases htile with htile | (rfl | rfl) | htile
      · exact hpos tile (Or.inl htile)
      · exact hpref
      · exact hsuff
      · exact hpos tile (Or.inr (Or.inr htile))
    · simp only [span_append, span_cons, span_nil]
      omega
    · rw [ht, ok_bind, heq]

theorem blockStartUnsafe_ok {t : NonContigTable} {tiles : List Tile} {blockSize : Nat → Nat}
    (hsound : Sound g tiles (g.cardOf (g.limit - 1) + 1) t.array)
    (hfull : g.bottom + span tiles = g.limit) (hsize : TrueSizes g tiles blockSize)
    {place addr fuel : Nat} (hblock : BlockAt g tiles place addr)
    (hfuel : g.cardOf (g.limit - 1) + 1 + tiles.length ≤ fuel) :
    blockStartUnsafe g false blockSize fuel t addr = .ok place := by
  have hlow := hblock.bottom_le
  have hhigh := hblock.lt_span
  have hreserved := g.reservedStart_le
  have hcard : g.indexFor addr ≤ g.cardOf (g.limit - 1) := by
    rw [g.indexFor_eq_cardOf]
    exact g.cardOf_mono (by omega)
  have hbottom : g.bottomCard ≤ g.indexFor addr := by
    rw [g.indexFor_eq_cardOf]
    exact g.cardOf_mono hlow
  have haddr : g.addressForIndex (g.indexFor addr) ≤ addr / g.heapWordSize := by
    rw [g.indexFor_eq_cardOf]
    exact g.addressForIndex_cardOf_le (hreserved.trans hlow)
  obtain ⟨card, hle, hcardLow, hstop, heq⟩ := @goBackLoop_ok g tiles _ _ hsound
    (fun offset => g.nWords ≤ offset) (fun offset hgo => of_decide_eq_true hgo) fuel
    (g.indexFor addr) (by omega) hbottom (by omega) (by omega)
  have hoffset : t.array card < g.nWords := not_le.mp (of_decide_eq_false hstop)
  have hcardAddr := g.addressForIndex_le_iff.mpr hle
  rw [blockStartUnsafe, vmAssert_of ⟨g.byteAddr_le_iff.mpr hlow,
    g.lt_byteAddr_iff.mpr (by omega)⟩, ok_bind, if_neg (by simp)]
  simp only
  rw [heq, ok_bind, vmAssert_of hoffset, ok_bind]
  exact walkLoop_from_card hsound hsize (by omega) hcardLow hoffset (by omega) hblock (by omega)

/-- In every run of the operations on a space of fewer than `2 ^ 28` cards the table is there
and the lookup returns, for every address of the space, the start of its block. -/
theorem reachable_blockStartUnsafe (g : Cover) (hfew : FewCards g) (s : Space)
    (hs : (system g).Reachable s) :
    ∃ t, s.table = .ok t ∧ ∀ blockSize, TrueSizes g s.tiles blockSize →
      ∀ addr, g.byteAddr g.bottom ≤ addr → addr < g.byteAddr g.limit →
        ∃ place, BlockAt g s.tiles place addr ∧
          ∃ enough, ∀ fuel ≥ enough,
            blockStartUnsafe g false blockSize fuel t addr = .ok place := by
  obtain ⟨-, hfull, t, ht, hsound⟩ := hs.invariant (fun _ => inStep_of_starts hfew)
    (fun _ _ hstate hstep => hstate.step hfew hstep)
  refine ⟨t, ht, fun blockSize hsize addr hlow hhigh => ?_⟩
  rw [g.byteAddr_le_iff] at hlow
  rw [g.lt_byteAddr_iff, ← hfull] at hhigh
  obtain ⟨place, tile, hmem, hin⟩ := exists_placed_of_lt hlow hhigh
  have hblock : BlockAt g s.tiles place addr :=
    ⟨tile, hmem, g.byteAddr_le_iff.mpr hin.1, g.lt_byteAddr_iff.mpr hin.2⟩
  exact ⟨place, hblock, _, fun fuel hfuel => blockStartUnsafe_ok hsound hfull hsize hblock hfuel⟩

/-- One block, split after 100 words. -/
def splitSpace : Space :=
  ⟨recordBlocks smallCover 64 [⟨1280, false⟩] ⟨fun _ => 0, 64⟩ >>=
      splitBlock smallCover 64 1280 100,
    [⟨100, true⟩, ⟨1180, false⟩]⟩

theorem reachable_blockStartUnsafe_splitSpace :
    ∃ t, splitSpace.table = .ok t ∧
      ∀ blockSize, TrueSizes smallCover splitSpace.tiles blockSize →
      ∀ addr, smallCover.byteAddr 64 ≤ addr → addr < smallCover.byteAddr 1344 →
        ∃ place, BlockAt smallCover splitSpace.tiles place addr ∧
          ∃ enough, ∀ fuel ≥ enough,
            blockStartUnsafe smallCover false blockSize fuel t addr = .ok place := by
  refine reachable_blockStartUnsafe smallCover (by decide) splitSpace
    (TransitionSystem.Reachable.step (.of_init (.recorded ⟨fun _ => 0, 64⟩ [⟨1280, false⟩]
      (by decide) rfl)) ?_)
  exact Step.split _ [] [] 100 1180 false true false (by decide) (by decide)

end NonContigTable

end BlockOffset

end HotSpot
