import HotSpot.Memory.BlockOffsetNonContig
import Mathlib

/-! # Which cards splitting a block rewrites

The loops of `split_block` write the last cards of each power block of the suffix. The first of
these writes may reach in front of its power block.
-/

namespace HotSpot

namespace BlockOffset

variable {g : Cover}

/-- `single_block` changes nothing: the cards that the block starts are as it writes them. -/
theorem recorded_eq_self_iff {start limit : Nat} {array : Nat → Nat} :
    recorded g start limit array = array ↔
      ∀ card, firstCard g start ≤ card → card ≤ g.cardOf (limit - 1) →
        array card = if card = firstCard g start then g.addressForIndex card - start
          else g.nWords + Nat.log 16 (card - firstCard g start) := by
  constructor
  · intro hrecorded card hfirst hlast
    rw [← hrecorded, recorded, if_pos (hfirst.trans hlast), pointingBack]
    split
    next hcard => rw [if_neg (by omega)]
    next hcard =>
      obtain rfl : card = firstCard g start := by omega
      rw [if_pos rfl, Function.update_self]
  · intro hcards
    rw [recorded]
    split
    next hle =>
      funext card
      rw [pointingBack]
      split
      next hcard => rw [hcards card (by omega) hcard.2, if_neg (by omega)]
      next hcard =>
        by_cases heq : card = firstCard g start
        · rw [heq, Function.update_self, hcards _ le_rfl hle, if_pos rfl]
        · rw [Function.update_of_ne heq]
    next => rfl

namespace NonContigTable

variable {array : Nat → Nat}

/-- When the loops write only in their power blocks, by the numbers of cards that the parts
start. -/
def WritesFit (numPrefCards numSuffCards : Nat) : Prop :=
  numSuffCards ≤ numPrefCards ∨ numPrefCards ≤ 15 * 16 ^ Nat.log 16 numPrefCards

theorem splitCards_exact_iff {pref suff last offset : Nat} (hpref : pref ≤ suff)
    (hold : ∀ card, suff < card → card ≤ last →
      array card = g.nWords + Nat.log 16 (card - pref)) :
    (∀ card, suff < card → card ≤ last →
      splitCards g pref suff last offset array card = g.nWords + Nat.log 16 (card - suff)) ↔
    WritesFit (suff - pref) (last + 1 - suff) := by
  have hupdated : ∀ card, suff < card → card ≤ last →
      Function.update array suff offset card = g.nWords + Nat.log 16 (card - pref) := by
    intro card hlow hhigh
    rw [Function.update_of_ne (by omega), hold card hlow hhigh]
  rw [splitCards]
  generalize Function.update array suff offset = updated at *
  by_cases hsuff : last < suff
  · exact iff_of_true (fun card hlow hhigh => by omega) (.inl (by omega))
  · rw [if_neg hsuff]
    by_cases hnone : suff = pref
    · subst hnone
      rw [if_pos rfl]
      exact iff_of_true hupdated (.inr (by omega))
    · rw [if_neg hnone]
      by_cases hfewSuff : last + 1 - suff ≤ suff - pref
      · rw [if_pos hfewSuff]
        refine iff_of_true (fun card hlow hhigh => ?_) (.inl hfewSuff)
        rw [pointingBack, if_pos ⟨hlow, hhigh⟩]
      · rw [if_neg hfewSuff]
        have hpos : suff - pref ≠ 0 := by omega
        generalize hn : suff - pref = n at *
        have hlog : 16 ^ Nat.log 16 n ≤ n := Nat.pow_log_le_self 16 hpos
        have hlog' : n < 16 ^ (Nat.log 16 n + 1) := Nat.lt_pow_succ_log_self (by decide) n
        have hnext : 16 ^ (Nat.log 16 n + 1) = 16 ^ Nat.log 16 n * 16 := Nat.pow_succ ..
        constructor
        · intro hexact
          refine .inr (Nat.le_of_not_lt fun hbig => ?_)
          -- the first card written, which lies in front of its power block
          have hcard := hexact (suff + (16 ^ (Nat.log 16 n + 1) - n)) (by omega) (by omega)
          rw [restPatch, if_neg (by omega), firstPatch, if_pos (by omega),
            Nat.add_sub_cancel_left] at hcard
          have hless : Nat.log 16 (16 ^ (Nat.log 16 n + 1) - n) < Nat.log 16 n :=
            Nat.log_lt_of_lt_pow (by omega) (by omega)
          omega
        · rintro (hfits | hfits) card hlow hhigh
          · exact absurd hfits hfewSuff
          · have hcardPos : card - suff ≠ 0 := by omega
            have hk : 16 ^ Nat.log 16 (card - suff) ≤ card - suff :=
              Nat.pow_log_le_self 16 hcardPos
            have hk' : card - suff < 16 ^ (Nat.log 16 (card - suff) + 1) :=
              Nat.lt_pow_succ_log_self (by decide) _
            have hshift : card - pref = card - suff + n := by omega
            rw [restPatch]
            split
            next => rfl
            next hrest =>
              rw [firstPatch]
              split
              next hfirst =>
                rw [@log_eq_of_region (Nat.log 16 n) (card - suff) (by omega) (by omega)]
              next hfirst =>
                rw [pointingBack]
                split
                next => rfl
                next hback =>
                  -- the old entry reaches as far back from the suffix
                  rw [hupdated card hlow hhigh, hshift]
                  by_cases hbeyond : suff + 16 ^ (Nat.log 16 n + 1) ≤ card
                  · rw [@log_eq_of_region (Nat.log 16 (card - suff)) (card - suff + n) (by omega)
                      (by omega)]
                  · rw [@log_eq_of_region (Nat.log 16 n) (card - suff + n) (by omega) (by omega),
                      @log_eq_of_region (Nat.log 16 n) (card - suff) (by omega) (by omega)]

/-- The cards in front of the suffix stay as they are, and its first card gets its offset. -/
theorem splitCards_of_le {pref suff last offset card : Nat} (hle : suff ≤ last)
    (hcard : card ≤ suff) : splitCards g pref suff last offset array card =
      Function.update array suff offset card := by
  have hlog : suff - pref < 16 ^ (Nat.log 16 (suff - pref) + 1) :=
    Nat.lt_pow_succ_log_self (by decide) _
  rw [splitCards, if_neg (by omega)]
  split
  next => rfl
  next =>
    split
    next => rw [pointingBack, if_neg (by omega)]
    next => rw [restPatch, if_neg (by omega), firstPatch, if_neg (by omega), pointingBack,
      if_neg (by omega)]

/-! ## Lookup on card boundaries -/

/-- The loop of `block_start_careful`. -/
def carefulLoop (g : Cover) (array : Nat → Nat) : Nat → Nat → Nat → Except Failure Nat
  | 0, _, _ => .error .outOfFuel
  | fuel + 1, q, index =>
    let offset := array index
    if offset < g.nWords then .ok (q - offset)
    else do
      let nCardsBack ← entryToCardsBack g offset
      carefulLoop g array fuel (q - nCardsBack * g.nWords) (index - nCardsBack)

def blockStartCareful (g : Cover) (useUnallocatedBlock : Bool) (fuel : Nat) (t : NonContigTable)
    (addr : Nat) : Except Failure Nat := do
  vmAssert (g.byteAddr g.bottom ≤ addr ∧ addr < g.byteAddr g.limit)
    "addr must be covered by this Array"
  if useUnallocatedBlock ∧ g.byteAddr t.unallocatedBlock ≤ addr then
    vmAssert (t.unallocatedBlock < g.limit) "tautology (see above)"
    return t.unallocatedBlock
  else
    let index := g.indexFor addr
    vmAssert (g.byteAddr (g.addressForIndex index) = addr) "arg should be start of card"
    let q ← carefulLoop g t.array fuel (g.addressForIndex index) index
    vmAssert (g.byteAddr q ≤ addr) "block start should be to left of arg"
    return q

theorem carefulLoop_ok {start limit card fuel : Nat} (hstart : g.reservedStart ≤ start)
    (hrecorded : recorded g start limit array = array)
    (hcards : g.cardOf (limit - 1) < firstCard g start + 16 ^ 7) (hfirst : firstCard g start ≤ card)
    (hlast : card ≤ g.cardOf (limit - 1)) (hfuel : card < fuel) :
    carefulLoop g array fuel (g.addressForIndex card) card = .ok start := by
  have hentries := recorded_eq_self_iff.mp hrecorded
  induction card using Nat.strong_induction_on generalizing fuel with
  | _ card ih =>
    obtain ⟨fuel, rfl⟩ := Nat.exists_eq_add_one.mpr (Nat.zero_lt_of_lt hfuel)
    rw [carefulLoop, hentries card hfirst hlast]
    by_cases hcard : card = firstCard g start
    · have hsub := firstCard_sub_lt hstart
      rw [← hcard] at hsub
      rw [if_pos hcard]
      simp only [if_pos hsub.2]
      congr 1
      omega
    · have hne : card - firstCard g start ≠ 0 := by omega
      have hpow : 16 ^ Nat.log 16 (card - firstCard g start) ≤ card - firstCard g start :=
        Nat.pow_log_le_self 16 hne
      have hpos : 0 < 16 ^ Nat.log 16 (card - firstCard g start) := Nat.pow_pos (by decide)
      have hlog : Nat.log 16 (card - firstCard g start) < 7 :=
        Nat.log_lt_of_lt_pow hne (by omega)
      rw [if_neg hcard]
      simp only [Nat.not_lt.mpr (Nat.le_add_right g.nWords _), if_false,
        entryToCardsBack_add (by omega : Nat.log 16 (card - firstCard g start) < 8), ok_bind]
      rw [Nat.mul_comm, Cover.addressForIndex_sub g (by omega)]
      exact ih _ (by omega) (by omega) (by omega) (by omega)

/-- A card boundary in a block leads to the start of the block. -/
theorem blockStartCareful_ok {start limit card fuel : Nat} {useUnallocatedBlock : Bool}
    {t : NonContigTable} (hfew : FewCards g) (hbottom : g.bottom ≤ start)
    (hlimit : limit ≤ g.limit) (hrecorded : recorded g start limit t.array = t.array)
    (hallocated : useUnallocatedBlock = true → limit ≤ t.unallocatedBlock)
    (hlow : start ≤ g.addressForIndex card) (hhigh : g.addressForIndex card < limit)
    (hfuel : card < fuel) :
    blockStartCareful g useUnallocatedBlock fuel t (g.byteAddr (g.addressForIndex card)) =
      .ok start := by
  have hstart := g.reservedStart_le.trans hbottom
  have hfirst := (firstCard_le_iff hstart).mpr hlow
  have hlast := (g.addressForIndex_lt_iff_le_cardOf (by omega : g.reservedStart < limit)).mp hhigh
  have hcards := hfew.cardOf_lt hlimit
  have hpref := bottomCard_le_firstCard hbottom
  have hloop := carefulLoop_ok hstart hrecorded (by omega) hfirst hlast hfuel
  have hindex : g.indexFor (g.byteAddr (g.addressForIndex card)) = card :=
    g.cardOf_addressForIndex card
  have hin : g.byteAddr g.bottom ≤ g.byteAddr (g.addressForIndex card) :=
    g.byteAddr_le_byteAddr_iff.mpr (by omega)
  have hout : ∀ p, g.byteAddr p ≤ g.byteAddr (g.addressForIndex card) ↔
      p ≤ g.addressForIndex card := fun p => g.byteAddr_le_byteAddr_iff
  rw [blockStartCareful, vmAssert_of ⟨hin, by have := hout g.limit; omega⟩, ok_bind, if_neg]
  · simp only [hindex]
    rw [vmAssert_of trivial, ok_bind, hloop, ok_bind, vmAssert_of ((hout start).mpr hlow), ok_bind]
    rfl
  · rintro ⟨huse, hle⟩
    have := hallocated huse
    have := (hout t.unallocatedBlock).mp hle
    omega

/-! ## Splitting a block -/

/-- The number of cards that a block starts. -/
def cardsStarted (g : Cover) (start limit : Nat) : Nat :=
  g.cardOf (limit - 1) + 1 - firstCard g start

/-- The first card behind `q` follows that of the word in front of it. -/
theorem firstCard_eq_cardOf_add {q : Nat} (hq : g.reservedStart < q) :
    firstCard g q = g.cardOf (q - 1) + 1 := by
  have hbefore : ∀ card, card ≤ g.cardOf (q - 1) ↔ ¬firstCard g q ≤ card := by
    intro card
    rw [← g.addressForIndex_lt_iff_le_cardOf hq, firstCard_le_iff hq.le, not_le]
  have hlast := (hbefore (g.cardOf (q - 1))).mp le_rfl
  have hnext := hbefore (g.cardOf (q - 1) + 1)
  omega

theorem singleBlock_eq_self_iff {start limit : Nat} {t : NonContigTable} (hfew : FewCards g)
    (hbottom : g.bottom ≤ start) (hlt : start < limit) (hlimit : limit ≤ g.limit) :
    singleBlock g start limit t = .ok t ↔ recorded g start limit t.array = t.array := by
  rw [singleBlock_of hfew hbottom hlt hlimit]
  constructor
  · intro heq
    exact congrArg NonContigTable.array (Except.ok.inj heq)
  · intro heq
    rw [heq]

/-- Splitting a block whose cards are as `single_block` writes them leaves cards as it writes them
for the two parts, which lead to their starts, exactly when the first write of the loops stays in
its power block. -/
theorem splitBlock_exact_iff (g : Cover) (hfew : FewCards g) {blk blkSize leftBlkSize : Nat}
    (t : NonContigTable) (hbottom : g.bottom ≤ blk) (hleft : 0 < leftBlkSize)
    (hsplit : leftBlkSize < blkSize) (hlimit : blk + blkSize ≤ g.limit)
    (hblock : singleBlock g blk (blk + blkSize) t = .ok t) :
    (∃ t', splitBlock g blk blkSize leftBlkSize t = .ok t' ∧
      singleBlock g blk (blk + leftBlkSize) t' = .ok t' ∧
      singleBlock g (blk + leftBlkSize) (blk + blkSize) t' = .ok t' ∧
      ∀ useUnallocatedBlock, (useUnallocatedBlock = true → blk + blkSize ≤ t'.unallocatedBlock) →
        ∀ card, blk ≤ g.addressForIndex card → g.addressForIndex card < blk + blkSize →
        ∀ fuel, card < fuel →
          blockStartCareful g useUnallocatedBlock fuel t' (g.byteAddr (g.addressForIndex card)) =
            .ok (if g.addressForIndex card < blk + leftBlkSize then blk
              else blk + leftBlkSize)) ↔
    WritesFit (cardsStarted g blk (blk + leftBlkSize))
      (cardsStarted g (blk + leftBlkSize) (blk + blkSize)) := by
  have hstart := g.reservedStart_le.trans hbottom
  have hmono := firstCard_mono hstart (by omega : blk ≤ blk + leftBlkSize)
  have hsuff := @firstCard_eq_cardOf_add g (blk + leftBlkSize) (by omega)
  have hold := recorded_eq_self_iff.mp
    ((singleBlock_eq_self_iff hfew hbottom (by omega) hlimit).mp hblock)
  have hcards : ∀ card, firstCard g (blk + leftBlkSize) < card →
      card ≤ g.cardOf (blk + blkSize - 1) →
      t.array card = g.nWords + Nat.log 16 (card - firstCard g blk) := by
    intro card hlow hhigh
    rw [hold card (by omega) hhigh, if_neg (by omega)]
  have hexact := @splitCards_exact_iff g t.array _ _ _ (g.addressForIndex
    (firstCard g (blk + leftBlkSize)) - (blk + leftBlkSize)) hmono hcards
  have hnumber : cardsStarted g blk (blk + leftBlkSize) =
      firstCard g (blk + leftBlkSize) - firstCard g blk := by rw [cardsStarted, ← hsuff]
  rw [hnumber, cardsStarted, ← hexact, splitBlock_eq hfew hbottom hleft hsplit hlimit]
  constructor
  · rintro ⟨t', ht', -, hsuffix, -⟩ card hlow hhigh
    obtain rfl := Except.ok.inj ht'
    have hnew := recorded_eq_self_iff.mp
      ((singleBlock_eq_self_iff hfew (by omega) (by omega) hlimit).mp hsuffix)
    have := hnew card hlow.le hhigh
    rwa [if_neg (by omega)] at this
  · intro hnew
    have hlast := g.cardOf_mono (by omega : blk + leftBlkSize - 1 ≤ blk + blkSize - 1)
    generalize htable : splitCards g (firstCard g blk) (firstCard g (blk + leftBlkSize))
      (g.cardOf (blk + blkSize - 1)) (g.addressForIndex (firstCard g (blk + leftBlkSize)) -
        (blk + leftBlkSize)) t.array = table at *
    have hprefix : recorded g blk (blk + leftBlkSize) table = table := by
      refine recorded_eq_self_iff.mpr fun card hlow hhigh => ?_
      rw [← hold card hlow (by omega), ← htable]
      by_cases hnone : g.cardOf (blk + blkSize - 1) < firstCard g (blk + leftBlkSize)
      · rw [splitCards, if_pos hnone]
      · rw [splitCards_of_le (by omega) (by omega), Function.update_of_ne (by omega)]
    have hsuffix : recorded g (blk + leftBlkSize) (blk + blkSize) table = table := by
      refine recorded_eq_self_iff.mpr fun card hlow hhigh => ?_
      by_cases hcard : card = firstCard g (blk + leftBlkSize)
      · subst hcard
        rw [if_pos rfl, ← htable, splitCards_of_le hhigh le_rfl, Function.update_self]
      · rw [if_neg hcard, hnew card (by omega) hhigh]
    refine ⟨_, rfl, ?_, ?_, fun use hallocated card hlow hhigh fuel hfuel => ?_⟩
    · exact (singleBlock_eq_self_iff hfew hbottom (by omega) (by omega)).mpr hprefix
    · exact (singleBlock_eq_self_iff hfew (by omega) (by omega) hlimit).mpr hsuffix
    · split
      next hpart =>
        exact blockStartCareful_ok hfew hbottom (by omega) hprefix
          (fun huse => by have := hallocated huse; omega) hlow hpart hfuel
      next hpart =>
        exact blockStartCareful_ok hfew (by omega) hlimit hsuffix hallocated (by omega) hhigh hfuel

theorem recorded_recorded {start limit : Nat} :
    recorded g start limit (recorded g start limit array) = recorded g start limit array := by
  refine recorded_eq_self_iff.mpr fun card hlow hhigh => ?_
  rw [recorded, if_pos (hlow.trans hhigh), pointingBack]
  split
  next hcard => rw [if_neg (by omega)]
  next hcard =>
    obtain rfl : card = firstCard g start := by omega
    rw [if_pos rfl, Function.update_self]

/-- One block fills the space. -/
def wholeSpace : NonContigTable := ⟨recorded splitCover 64 32064 fun _ => 0, 32064⟩

theorem wholeSpace_singleBlock : singleBlock splitCover 64 32064 wholeSpace = .ok wholeSpace :=
  (singleBlock_eq_self_iff (by decide) (by decide) (by decide) (by decide)).mpr recorded_recorded

/-- Split behind its first 241 cards: the card fifteen behind the first of the suffix leads to the
start of the prefix. -/
theorem splitBlock_not_exact :
    singleBlock splitCover 64 (64 + 32000) wholeSpace = .ok wholeSpace ∧
      ∃ t', splitBlock splitCover 64 32000 15424 wholeSpace = .ok t' ∧
        blockStartCareful splitCover false 500 t' (splitCover.byteAddr
          (splitCover.addressForIndex 256)) = .ok 64 ∧
        64 + 15424 ≤ splitCover.addressForIndex 256 := by
  refine ⟨wholeSpace_singleBlock, _, splitBlock_eq (by decide) (by decide) (by decide) (by decide)
    (by decide), ?_, by decide⟩
  decide +kernel

/-- Split behind its first three cards. -/
theorem splitBlock_exact_iff_threeCards :
    ∃ t', splitBlock splitCover 64 32000 192 wholeSpace = .ok t' ∧
      singleBlock splitCover 64 (64 + 192) t' = .ok t' ∧
      singleBlock splitCover (64 + 192) (64 + 32000) t' = .ok t' := by
  have hfits : WritesFit (cardsStarted splitCover 64 (64 + 192))
      (cardsStarted splitCover (64 + 192) (64 + 32000)) := .inr (by decide +kernel)
  obtain ⟨t', hsplit, hprefix, hsuffix, -⟩ :=
    (splitBlock_exact_iff splitCover (by decide) wholeSpace
    (by decide) (by decide : 0 < 192) (by decide : 192 < 32000) (by decide)
    wholeSpace_singleBlock).mpr hfits
  exact ⟨t', hsplit, hprefix, hsuffix⟩

end NonContigTable

end BlockOffset

end HotSpot
