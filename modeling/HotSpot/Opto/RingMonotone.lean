import HotSpot.Opto.TypeOrder

/-! # Larger ranges give larger ranges

The monotonicity of the functions on ranges. A range whose ends are values of the
operation lies in a larger range by soundness, so that only the branches that give up
are left.
-/

namespace HotSpot.Opto

open TypeInteger

/-! ## Ranges -/

section Ring

variable {w : Nat} {r0 r1 r0' r1' : TypeInteger w}

/-- A sum that leaves the range at either end makes the range full. -/
theorem addRing_of_overflow (hw : 0 < w) (hcon : ¬ (r0.isCon = true ∧ r1.isCon = true))
    (hover : r0.lo.toInt + r1.lo.toInt < -2 ^ (w - 1) ∨
      2 ^ (w - 1) ≤ r0.hi.toInt + r1.hi.toInt) :
    (full w).Subset (addRing r0 r1) := by
  unfold addRing
  dsimp only
  split
  next h => exact absurd (Bool.and_eq_true _ _ ▸ h) hcon
  next =>
    split
    next => exact subset_of_contains (contains_intMin_intMax hw _ _) (contains_intMin_intMax hw _ _)
    next hunder =>
      split
      next =>
        exact subset_of_contains (contains_intMin_intMax hw _ _) (contains_intMin_intMax hw _ _)
      next hover' =>
        simp only [Bool.and_eq_true, BitVec.slt_iff_toInt_lt, BitVec.sle_iff_toInt_le,
          BitVec.toInt_zero, toInt_and_lt_zero_iff, toInt_not_or_lt_zero_iff hw] at hunder hover'
        have hlo := toInt_add_cases hw r0.lo r1.lo
        have hhi := toInt_add_cases hw r0.hi r1.hi
        have := BitVec.le_toInt r0.lo
        have := BitVec.le_toInt r1.lo
        have := BitVec.toInt_lt (x := r0.lo)
        have := BitVec.toInt_lt (x := r1.lo)
        have := BitVec.le_toInt r0.hi
        have := BitVec.le_toInt r1.hi
        have := BitVec.toInt_lt (x := r0.hi)
        have := BitVec.toInt_lt (x := r1.hi)
        omega

/-- Otherwise the ends of the range are sums. -/
theorem addRing_ends (hw : 0 < w) (hv0 : r0.Valid) (hv1 : r1.Valid) :
    ((addRing r0 r1).lo = r0.lo + r1.lo ∧ (addRing r0 r1).hi = r0.hi + r1.hi) ∨
    (¬ (r0.isCon = true ∧ r1.isCon = true) ∧
      (r0.lo.toInt + r1.lo.toInt < -2 ^ (w - 1) ∨ 2 ^ (w - 1) ≤ r0.hi.toInt + r1.hi.toInt)) := by
  have hle0 := hv0.toInt_le
  have hle1 := hv1.toInt_le
  have hlo := toInt_add_cases hw r0.lo r1.lo
  have hhi := toInt_add_cases hw r0.hi r1.hi
  unfold addRing
  dsimp only
  split
  next => simp
  next hcon =>
    rw [Bool.and_eq_true] at hcon
    split
    next hunder =>
      simp only [Bool.and_eq_true, BitVec.slt_iff_toInt_lt, BitVec.sle_iff_toInt_le,
        BitVec.toInt_zero, toInt_and_lt_zero_iff] at hunder
      exact .inr ⟨hcon, by omega⟩
    next =>
      split
      next hover =>
        simp only [Bool.and_eq_true, BitVec.slt_iff_toInt_lt, BitVec.toInt_zero,
          toInt_not_or_lt_zero_iff hw] at hover
        exact .inr ⟨hcon, by omega⟩
      next =>
        split
        next hwrap =>
          rw [BitVec.slt_iff_toInt_lt] at hwrap
          exact .inr ⟨hcon, by omega⟩
        next => simp

theorem addRing_mono (hw : 0 < w) (hv0 : r0.Valid) (hv1 : r1.Valid) (h0 : r0.Subset r0')
    (h1 : r1.Subset r1') : (addRing r0 r1).Subset (addRing r0' r1') := by
  rcases addRing_ends hw hv0 hv1 with ⟨hlo, hhi⟩ | ⟨hcon, hover⟩
  · apply subset_of_contains
    · rw [hlo]
      exact addRing_sound hw (h0.contains hv0.contains_lo) (h1.contains hv1.contains_lo)
    · rw [hhi]
      exact addRing_sound hw (h0.contains hv0.contains_hi) (h1.contains hv1.contains_hi)
  · apply (subset_full hw _).trans
    apply addRing_of_overflow hw
    · intro hcon'
      exact hcon ⟨hv0.isCon_of_subset h0 hcon'.1, hv1.isCon_of_subset h1 hcon'.2⟩
    · rw [subset_iff] at h0 h1
      omega

theorem subRing_mono (hw : 0 < w) (hv0 : r0.Valid) (hv1 : r1.Valid) (h0 : r0.Subset r0')
    (h1 : r1.Subset r1') : (subRing r0 r1).Subset (subRing r0' r1') := by
  by_cases hfits : (subRing r0 r1).lo = r0.lo - r1.hi ∧ (subRing r0 r1).hi = r0.hi - r1.lo
  · apply subset_of_contains
    · rw [hfits.1]
      exact subRing_sound hw (h0.contains hv0.contains_lo) (h1.contains hv1.contains_hi)
    · rw [hfits.2]
      exact subRing_sound hw (h0.contains hv0.contains_hi) (h1.contains hv1.contains_lo)
  · apply (subset_full hw _).trans
    -- A difference leaves the range, so that one of the larger ranges does.
    unfold subRing at hfits ⊢
    dsimp only at hfits ⊢
    split at hfits
    next => simp at hfits
    next hover =>
      split
      next hsigns =>
        exfalso
        apply hover
        rw [subset_iff] at h0 h1
        have hle0 := hv0.toInt_le
        have hle1 := hv1.toInt_le
        simp only [Bool.and_eq_true, Bool.or_eq_true, BitVec.sle_iff_toInt_le, BitVec.toInt_zero,
          zero_le_toInt_xor_iff] at hsigns ⊢
        have hlo := toInt_sub_cases hw r0.lo r1.hi
        have hhi := toInt_sub_cases hw r0.hi r1.lo
        have hlo' := toInt_sub_cases hw r0'.lo r1'.hi
        have hhi' := toInt_sub_cases hw r0'.hi r1'.lo
        have := BitVec.le_toInt r0'.lo
        have := BitVec.le_toInt r1'.lo
        have := BitVec.toInt_lt (x := r0'.hi)
        have := BitVec.toInt_lt (x := r1'.hi)
        constructor <;> omega
      next => exact Subset.refl _

theorem mulRing_mono (hw : 0 < w) (hv0 : r0.Valid) (hv1 : r1.Valid) (h0 : r0.Subset r0')
    (h1 : r1.Subset r1') : (mulRing r0 r1).Subset (mulRing r0' r1') := by
  have hlo0 := h0.contains hv0.contains_lo
  have hhi0 := h0.contains hv0.contains_hi
  have hlo1 := h1.contains hv1.contains_lo
  have hhi1 := h1.contains hv1.contains_hi
  have hA := mulRing_sound hw hlo0 hlo1
  have hB := mulRing_sound hw hlo0 hhi1
  have hC := mulRing_sound hw hhi0 hlo1
  have hD := mulRing_sound hw hhi0 hhi1
  conv_lhs => unfold mulRing
  dsimp only
  split
  next hover =>
    -- A product of the ends wraps around, so that one of the larger ranges does.
    unfold mulRing
    dsimp only
    split
    next => exact Subset.refl _
    next hfits =>
      exfalso
      simp only [mulOverflows, Bool.or_eq_true, decide_eq_true_eq, not_or, ne_eq, not_not] at *
      obtain ⟨⟨⟨hA', hB'⟩, hC'⟩, hD'⟩ := hfits
      rcases hover with ((hover | hover) | hover) | hover
      · exact hover (toInt_mul_between hw hlo0 hlo1 hA' hB' hC' hD').1
      · exact hover (toInt_mul_between hw hlo0 hhi1 hA' hB' hC' hD').1
      · exact hover (toInt_mul_between hw hhi0 hlo1 hA' hB' hC' hD').1
      · exact hover (toInt_mul_between hw hhi0 hhi1 hA' hB' hC' hD').1
  next =>
    split
    next =>
      apply subset_of_contains
      · rw [make_lo]
        split_ifs <;> assumption
      · rw [make_hi]
        split_ifs <;> assumption
    next =>
      apply subset_of_contains
      · rw [make_lo]
        split_ifs <;> assumption
      · rw [make_hi]
        split_ifs <;> assumption

/-! ## Logical operations -/

/-- A mask that is the only constant. -/
theorem andRing_right {rest : TypeInteger w} (h0 : r0.isCon = false) (h1 : r1.isCon = true) :
    andRing r0 r1 rest =
      if (0#w).slt r1.lo then make 0#w r1.lo (max r0.widen r1.widen) else rest := by
  simp [andRing, h0, h1]

theorem andRing_left {rest : TypeInteger w} (h0 : r0.isCon = true) (h1 : r1.isCon = false) :
    andRing r0 r1 rest =
      if (0#w).slt r0.lo then make 0#w r0.lo (max r0.widen r1.widen) else rest := by
  simp [andRing, h0, h1]

/-- `rest` is compared only if the same inputs are constants. -/
theorem andRing_mono (hw : 0 < w) {rest rest' : TypeInteger w} (hv0 : r0.Valid) (hv1 : r1.Valid)
    (h0 : r0.Subset r0') (h1 : r1.Subset r1') (hsound : rest'.Contains (r0.lo &&& r1.lo))
    (hrest : r0'.isCon = r0.isCon → r1'.isCon = r1.isCon → rest.Subset rest') :
    (andRing r0 r1 rest).Subset (andRing r0' r1' rest') := by
  have hcon0 := hv0.eq_of_isCon h0
  have hcon1 := hv1.eq_of_isCon h1
  have hmono0 := hv0.isCon_of_subset h0
  have hmono1 := hv1.isCon_of_subset h1
  cases he0 : r0.isCon <;> cases he1 : r1.isCon
  · simp_all [andRing, Subset.refl]
  · have he0' : r0'.isCon = false := by simp_all
    cases he1' : r1'.isCon
    · simp_all [andRing, subset_full]
    · obtain ⟨hlo, -⟩ := hcon1 he1'
      rw [andRing_right he0 he1, andRing_right he0' he1', hlo]
      split
      next => rw [subset_iff, make_lo, make_lo, make_hi, make_hi]; omega
      next => exact hrest (he0'.trans he0.symm) (he1'.trans he1.symm)
  · have he1' : r1'.isCon = false := by simp_all
    cases he0' : r0'.isCon
    · simp_all [andRing, subset_full]
    · obtain ⟨hlo, -⟩ := hcon0 he0'
      rw [andRing_left he0 he1, andRing_left he0' he1', hlo]
      split
      next => rw [subset_iff, make_lo, make_lo, make_hi, make_hi]; omega
      next => exact hrest (he0'.trans he0.symm) (he1'.trans he1.symm)
  · have hand : andRing r0 r1 rest = con (r0.lo &&& r1.lo) := by simp [andRing, he0, he1]
    rw [hand, con_subset_iff]
    exact andRing_sound hw (h0.contains hv0.contains_lo) (h1.contains hv1.contains_lo) hsound

theorem bitRing_mono (hw : 0 < w) {op : BitVec w → BitVec w → BitVec w} (hv0 : r0.Valid)
    (hv1 : r1.Valid) (h0 : r0.Subset r0') (h1 : r1.Subset r1') :
    (bitRing r0 r1 op).Subset (bitRing r0' r1' op) := by
  conv_lhs => unfold bitRing
  split
  next =>
    rw [con_subset_iff]
    exact bitRing_sound hw (h0.contains hv0.contains_lo) (h1.contains hv1.contains_lo)
  next hcon =>
    rw [Bool.and_eq_true] at hcon
    rw [bitRing, if_neg]
    · exact Subset.refl _
    · rw [Bool.and_eq_true]
      intro hcon'
      exact hcon ⟨hv0.isCon_of_subset h0 hcon'.1, hv1.isCon_of_subset h1 hcon'.2⟩

/-! ## Quotients and remainders -/

theorem modRing_mono (hw : 0 < w) (hv0 : r0.Valid) (hv1 : r1.Valid) (h0 : r0.Subset r0')
    (h1 : r1.Subset r1') : (modRing r0 r1).Subset (modRing r0' r1') := by
  have hsub0 := subset_iff.mp h0
  have hsub1 := subset_iff.mp h1
  have hmono0 := hv0.isCon_of_subset h0
  have hmono1 := hv1.isCon_of_subset h1
  conv_lhs => unfold modRing
  split
  next hcon =>
    have hcon' : (decide (r0'.isCon = false) || decide (r1'.isCon = false)) = true := by
      simp only [Bool.or_eq_true, decide_eq_true_eq] at hcon ⊢
      grind
    rw [modRing, if_pos hcon']
    simp only [Bool.and_eq_true, BitVec.sle_iff_toInt_le, BitVec.toInt_zero]
    split
    next =>
      split
      next => exact Subset.refl _
      next => exact subset_full hw _
    next =>
      rw [if_neg (by omega)]
      exact Subset.refl _
  next hcon =>
    split
    next hzero =>
      unfold modRing
      split
      next =>
        split
        next => exact Subset.refl _
        next => exact subset_full hw _
      next hcon' =>
        simp only [Bool.or_eq_true, decide_eq_true_eq, not_or, Bool.not_eq_false] at hcon'
        rw [if_pos ((hv1.eq_of_isCon h1 hcon'.2).1.symm.trans hzero)]
        exact Subset.refl _
    next hzero =>
      have hrem :=
        modRing_sound hw (h0.contains hv0.contains_lo) (h1.contains hv1.contains_lo) hzero
      split
      next hmin =>
        rw [zero, con_subset_iff]
        rwa [hmin.2, show r0.lo.srem (-1#w) = 0#w from BitVec.eq_of_toInt_eq (by
          rw [BitVec.toInt_srem, BitVec.toInt_zero, toInt_neg_one hw, Int.tmod_neg,
            Int.tmod_one])] at hrem
      next => rwa [con_subset_iff]

/-- A divisor -1 wraps around the smallest number to itself, and the range has no hole. -/
theorem full_subset_divRing (hw : 0 < w) (h0 : r0.Contains (BitVec.intMin w))
    (hne : r0.hi ≠ BitVec.intMin w) (h1 : r1.Contains (-1#w)) :
    (full w).Subset (divRing r0 r1) := by
  have hlo : r0.lo = BitVec.intMin w := by
    have hle := BitVec.le_toInt r0.lo
    rw [contains_iff, BitVec.toInt_intMin_of_pos hw] at h0
    apply BitVec.eq_of_toInt_eq
    rw [BitVec.toInt_intMin_of_pos hw]
    omega
  unfold divRing
  dsimp only
  split
  next hcon =>
    rw [Bool.and_eq_true] at hcon
    rw [← h1.eq_of_isCon hcon.1, hlo, if_neg, if_pos ⟨rfl, rfl⟩]
    · exact subset_of_contains (contains_intMin_intMax hw _ _) (contains_intMin_intMax hw _ _)
    · rw [BitVec.sle_iff_toInt_le, toInt_neg_one hw, BitVec.toInt_zero]
      omega
  next =>
    rw [if_neg]
    · exact Subset.refl _
    · intro hcon
      exact hne ((isCon_iff.mp hcon).symm.trans hlo)

theorem divRing_mono (hw : 2 < w) (hv0 : r0.Valid) (hv1 : r1.Valid) (h0 : r0.Subset r0')
    (h1 : r1.Subset r1') : (divRing r0 r1).Subset (divRing r0' r1') := by
  have hlo0 := h0.contains hv0.contains_lo
  have hhi0 := h0.contains hv0.contains_hi
  by_cases hcon : (r1.isCon && decide (r1.lo ≠ 0#w)) = true
  · have hlo1 := h1.contains hv1.contains_lo
    have hdiv : ∀ {x}, r0'.Contains x → (divRing r0' r1').Contains (x.sdiv r1.lo) := fun hx =>
      divRing_sound hw hx hlo1
    conv_lhs => unfold divRing
    dsimp only
    rw [if_pos hcon]
    split
    next =>
      apply subset_of_contains
      · rw [make_lo]
        exact hdiv hlo0
      · rw [make_hi]
        exact hdiv hhi0
    next =>
      split
      next hwrap =>
        obtain ⟨hd, hmin⟩ := hwrap
        rw [hmin] at hlo0
        split
        next =>
          have hquot := hdiv hlo0
          rw [hd, BitVec.intMin_sdiv_neg_one] at hquot
          apply subset_of_contains
          · rwa [make_lo]
          · rwa [make_hi]
        next hne =>
          apply (subset_full (by omega) _).trans
          apply full_subset_divRing (by omega) hlo0
          · intro heq
            have hle := hv0.toInt_le
            rw [hmin] at hle
            rw [contains_iff, heq] at hhi0
            exact hne (BitVec.eq_of_toInt_eq (by omega))
          · rwa [hd] at hlo1
      next =>
        apply subset_of_contains
        · rw [make_lo]
          exact hdiv hhi0
        · rw [make_hi]
          exact hdiv hlo0
  · have hcon' : ¬ (r1'.isCon && decide (r1'.lo ≠ 0#w)) = true := by
      intro h
      rw [Bool.and_eq_true] at h hcon
      apply hcon
      rw [(hv1.eq_of_isCon h1 h.1).1]
      exact ⟨hv1.isCon_of_subset h1 h.1, h.2⟩
    unfold divRing
    dsimp only
    rw [if_neg hcon, if_neg hcon']
    by_cases he0' : r0'.isCon = true
    · rw [if_pos he0', if_pos (hv0.isCon_of_subset h0 he0'), (hv0.eq_of_isCon h0 he0').1]
      split_ifs <;> rw [subset_iff] <;> simp
    · rw [if_neg he0']
      exact subset_full (by omega) _

/-! ## Shifts -/

section Shift

variable {k : Nat} {r2 r2' : TypeInt}

theorem lshiftRing_mono (hk : k < w) (hv0 : r0.Valid) (h0 : r0.Subset r0') :
    (lshiftRing r0 k r2).Subset (lshiftRing r0' k r2') := by
  have hshift : ∀ {x}, r0.Contains x → (lshiftRing r0' k r2').Contains (x <<< k) := fun hx =>
    lshiftRing_sound hk (h0.contains hx)
  have hlo := hshift hv0.contains_lo
  have hhi := hshift hv0.contains_hi
  conv_lhs => unfold lshiftRing
  split
  next hcon =>
    split
    next =>
      apply subset_of_contains
      · rwa [make_lo]
      · rwa [make_hi]
    next hover =>
      -- An end loses bits, so that one of the larger range does.
      rw [lshiftRing, if_pos (Bool.eq_false_iff.mpr fun hcon' => by
        simp [hv0.isCon_of_subset h0 hcon'] at hcon), if_neg]
      · exact Subset.refl _
      · intro hfits
        have hback : ∀ {x}, r0'.Contains x → (x <<< k).sshiftRight k = x := by
          intro x hx
          apply BitVec.eq_of_toInt_eq
          rw [toInt_sshiftRight_eq, toInt_shiftLeft_between hk hfits.1 hfits.2 hx]
          exact Int.mul_ediv_cancel _ (by positivity)
        exact hover ⟨hback (h0.contains hv0.contains_lo), hback (h0.contains hv0.contains_hi)⟩
  next => rwa [con_subset_iff]

theorem rshiftRing_mono (hv0 : r0.Valid) (h0 : r0.Subset r0') :
    (rshiftRing r0 k r2).Subset (rshiftRing r0' k r2') := by
  conv_lhs => unfold rshiftRing
  apply subset_of_contains
  · rw [make_lo]
    exact rshiftRing_sound (h0.contains hv0.contains_lo)
  · rw [make_hi]
    exact rshiftRing_sound (h0.contains hv0.contains_hi)

theorem urshiftRing_mono (hw : 0 < w) (hk : 0 < k) (hv0 : r0.Valid) (h0 : r0.Subset r0') :
    (urshiftRing r0 k r2).Subset (urshiftRing r0' k r2') := by
  have hshift : ∀ {x}, r0.Contains x → (urshiftRing r0' k r2').Contains (x >>> k) := fun hx =>
    urshiftRing_sound hk (h0.contains hx)
  have hlo := hshift hv0.contains_lo
  have hhi := hshift hv0.contains_hi
  conv_lhs => unfold urshiftRing
  dsimp only
  split
  next hsigns =>
    rw [Bool.and_eq_true, BitVec.sle_iff_toInt_le, BitVec.slt_iff_toInt_lt, BitVec.toInt_zero]
      at hsigns
    -- Both halves are inhabited, and meet at 0 and -1.
    have hzero := hshift (x := 0#w) (contains_iff.mpr (by rw [BitVec.toInt_zero]; omega))
    have hones := hshift (x := BitVec.allOnes w) (contains_iff.mpr (by
      rw [← BitVec.neg_one_eq_allOnes, toInt_neg_one hw]; omega))
    apply subset_of_contains
    · rw [make_lo]
      split_ifs <;> assumption
    · rw [make_hi]
      split_ifs <;> assumption
  next =>
    apply subset_of_contains
    · rwa [make_lo]
    · rwa [make_hi]

end Shift

/-! ## Comparisons -/

theorem cmpRing_mono (hv0 : r0.Valid) (hv1 : r1.Valid) (h0 : r0.Subset r0')
    (h1 : r1.Subset r1') : (cmpRing r0 r1).Subset (cmpRing r0' r1') := by
  have hle0 := hv0.toInt_le
  have hle1 := hv1.toInt_le
  rw [subset_iff] at h0 h1
  unfold cmpRing
  simp only [BitVec.slt_iff_toInt_lt, Bool.and_eq_true, isCon_iff, ← BitVec.toInt_inj]
  -- Larger ranges never decide a comparison in another way.
  split_ifs <;> first | decide | omega

end Ring

/-! ## Logical operations on ints -/

section IntRing

variable {r0 r1 r0' r1' : TypeInt}

theorem AndINode.mulRing_mono (hv0 : r0.Valid) (hv1 : r1.Valid) (h0 : r0.Within r0')
    (h1 : r1.Within r1') : (AndINode.mulRing r0 r1).Subset (AndINode.mulRing r0' r1') := by
  apply andRing_mono (by decide) hv0 hv1 h0.subset h1.subset
  · exact contains_and_bool (h0.subset.contains hv0.contains_lo)
      (h1.subset.contains hv1.contains_lo)
  · intro hcon0 hcon1
    -- A range that is no constant is a boolean if it is within one.
    have hback : ∀ {t u : TypeInt}, t.Within u → t.Valid → u.isCon = t.isCon → u = bool →
        t = bool := by
      rintro t u h hvalid hcon rfl
      rcases h.cases_bool hvalid with rfl | rfl | rfl
      · exact absurd hcon (by decide)
      · exact absurd hcon (by decide)
      · rfl
    by_cases hbool : r0' = bool ∨ r1' = bool
    · rw [if_pos hbool, if_pos (hbool.imp (hback h0 hv0 hcon0) (hback h1 hv1 hcon1))]
      exact Subset.refl _
    · rw [if_neg hbool]
      exact subset_full (by decide) _

/-- What a type within `ONE` or `BOOL` is if it is not `ZERO`. -/
theorem TypeInteger.Within.cases_flag {t u : TypeInt} (h : t.Within u) (hvalid : t.Valid)
    (hzero : t ≠ zero 32) (hflag : u = one 32 ∨ u = bool) :
    (t = one 32 ∧ u = one 32) ∨ (t = one 32 ∧ u = bool) ∨ (t = bool ∧ u = bool) := by
  rcases hflag with rfl | rfl
  · exact .inl ⟨h.eq_con hvalid, rfl⟩
  · rcases h.cases_bool hvalid with rfl | rfl | rfl
    · exact absurd rfl hzero
    · exact .inr (.inl ⟨rfl, rfl⟩)
    · exact .inr (.inr ⟨rfl, rfl⟩)

theorem OrINode.addRing_mono (hv0 : r0.Valid) (hv1 : r1.Valid) (h0 : r0.Within r0')
    (h1 : r1.Within r1') (hzero0 : r0 ≠ zero 32) (hzero1 : r1 ≠ zero 32) :
    (OrINode.addRing r0 r1).Subset (OrINode.addRing r0' r1') := by
  by_cases hflags : (r0' = one 32 ∨ r0' = bool) ∧ (r1' = one 32 ∨ r1' = bool)
  · rcases h0.cases_flag hv0 hzero0 hflags.1 with ⟨rfl, rfl⟩ | ⟨rfl, rfl⟩ | ⟨rfl, rfl⟩ <;>
      rcases h1.cases_flag hv1 hzero1 hflags.2 with ⟨rfl, rfl⟩ | ⟨rfl, rfl⟩ | ⟨rfl, rfl⟩ <;> decide
  · have hring : OrINode.addRing r0' r1' = bitRing r0' r1' (· ||| ·) := by
      rw [OrINode.addRing, if_neg (by tauto), if_neg (by tauto), if_neg (by tauto)]
    have hor : ∀ {x y}, r0.Contains x → r1.Contains y →
        (OrINode.addRing r0' r1').Contains (x ||| y) := fun hx hy =>
      OrINode.addRing_sound (h0.subset.contains hx) (h1.subset.contains hy)
    conv_lhs => unfold OrINode.addRing
    split
    next h =>
      obtain ⟨rfl, rfl⟩ := h
      exact con_subset_iff.mpr (hor (x := 1) (y := 1) (by decide) (by decide))
    next =>
      split
      next h =>
        obtain ⟨rfl, rfl⟩ := h
        exact subset_of_contains (hor (x := 0) (y := 0) (by decide) (by decide))
          (hor (x := 1) (y := 1) (by decide) (by decide))
      next =>
        split
        next h =>
          obtain ⟨rfl, rfl⟩ := h
          exact con_subset_iff.mpr (hor (x := 1) (y := 1) (by decide) (by decide))
        next =>
          rw [hring]
          exact bitRing_mono (by decide) hv0 hv1 h0.subset h1.subset

/-- The sibling of `OrINode::add_ring` forgets that the second input may be the boolean. -/
theorem XorINode.addRing_mono (hv0 : r0.Valid) (hv1 : r1.Valid) (h0 : r0.Within r0')
    (h1 : r1.Within r1') (hzero0 : r0 ≠ zero 32) (hzero1 : r1 ≠ zero 32)
    (hstep : ¬ (r0 = one 32 ∧ r1 = bool ∧ r0' = bool ∧ r1' = bool)) :
    (XorINode.addRing r0 r1).Subset (XorINode.addRing r0' r1') := by
  by_cases hflags : r0' = bool ∧ (r1' = one 32 ∨ r1' = bool)
  · rcases h0.cases_flag hv0 hzero0 (.inr hflags.1) with ⟨rfl, rfl⟩ | ⟨rfl, rfl⟩ | ⟨rfl, rfl⟩ <;>
      rcases h1.cases_flag hv1 hzero1 hflags.2 with ⟨rfl, rfl⟩ | ⟨rfl, rfl⟩ | ⟨rfl, rfl⟩ <;>
      revert hstep <;> decide
  · have hxor : ∀ {x y}, r0.Contains x → r1.Contains y →
        (XorINode.addRing r0' r1').Contains (x ^^^ y) := fun hx hy =>
      XorINode.addRing_sound (h0.subset.contains hx) (h1.subset.contains hy)
    conv_lhs => unfold XorINode.addRing
    split
    next h =>
      obtain ⟨rfl, rfl | rfl⟩ := h
      · exact subset_of_contains (hxor (x := 1) (y := 1) (by decide) (by decide))
          (hxor (x := 0) (y := 1) (by decide) (by decide))
      · exact subset_of_contains (hxor (x := 1) (y := 1) (by decide) (by decide))
          (hxor (x := 0) (y := 1) (by decide) (by decide))
    next =>
      rw [XorINode.addRing, if_neg hflags]
      exact bitRing_mono (by decide) hv0 hv1 h0.subset h1.subset

theorem MaxINode.addRing_mono (h0 : r0.Subset r0') (h1 : r1.Subset r1') :
    (MaxINode.addRing r0 r1).Subset (MaxINode.addRing r0' r1') := by
  rw [subset_iff] at *
  simp only [MaxINode.addRing, make_lo, make_hi, toInt_ite_slt_swap]
  omega

theorem MinINode.addRing_mono (h0 : r0.Subset r0') (h1 : r1.Subset r1') :
    (MinINode.addRing r0 r1).Subset (MinINode.addRing r0' r1') := by
  rw [subset_iff] at *
  simp only [MinINode.addRing, make_lo, make_hi, toInt_ite_slt]
  omega

end IntRing

end HotSpot.Opto

/-! ## Unsigned comparisons of larger ranges

The check of a hash index is the only part of `CmpUNode::sub` that looks at the nodes, and
the only one that is not monotone.
-/

namespace HotSpot.Opto

open TypeInteger

section CompareUnsigned

variable {in1 in2 : Node} {r0 r1 r0' r1' : TypeInt}

/-- Without the hash index check the nodes do not matter. -/
theorem CmpUNode.sub_eq_leaf
    (h : ((0#32).sle r0.lo && (0#32).sle r1.lo &&
      isModBy (fun x y => x.uncast = y.uncast) in1 in2) = false) :
    CmpUNode.sub in1 in2 r0 r1 = CmpUNode.sub (.leaf 0) (.leaf 0) r0 r1 := by
  have hmod : ((0#32).sle r0.lo && (0#32).sle r1.lo && isModBy (fun x y => x = y) in1 in2) =
      false := by
    rw [Bool.eq_false_iff, ne_eq, Bool.and_eq_true] at h ⊢
    intro hand
    exact h ⟨hand.1, isModBy_uncast hand.2⟩
  have hleaf : ∀ same, isModBy same (.leaf 0) (.leaf 0) = false := fun _ => rfl
  simp only [CmpUNode.sub, h, hmod, hleaf, Bool.and_false]

/-- `CmpUNode::sub` without the hash index check. -/
theorem CmpUNode.sub_leaf :
    CmpUNode.sub (.leaf 0) (.leaf 0) r0 r1 =
      if (r0.lo ^^^ r0.hi).toInt < 0 ∨ (r1.lo ^^^ r1.hi).toInt < 0 then
        if r0.lo = 0 ∧ r0.hi = 0 then ccLE else if r1.lo = 0 ∧ r1.hi = 0 then ccGE else cc
      else if r0.hi.toNat < r1.lo.toNat then ccLT
      else if r1.hi.toNat < r0.lo.toNat then ccGT
      else if r0.hi.toNat = r1.lo.toNat ∧ r0.lo.toNat = r1.hi.toNat then ccEQ
      else if r1.hi.toNat ≤ r0.lo.toNat then ccGE
      else if r0.hi.toNat ≤ r1.lo.toNat then ccLE
      else cc := by
  have hleaf : ∀ same, isModBy same (.leaf 0) (.leaf 0) = false := fun _ => rfl
  simp [CmpUNode.sub, hleaf, BitVec.slt_iff_toInt_lt, BitVec.ult_iff_lt, BitVec.ule_iff_le,
    BitVec.lt_def, BitVec.le_def, ← BitVec.toNat_inj]

theorem CmpUNode.sub_leaf_mono (hv0 : r0.Valid) (hv1 : r1.Valid) (h0 : r0.Subset r0')
    (h1 : r1.Subset r1') :
    (CmpUNode.sub (.leaf 0) (.leaf 0) r0 r1).Subset
      (CmpUNode.sub (.leaf 0) (.leaf 0) r0' r1') := by
  -- A range within one of a single sign has this sign.
  have hsign : ∀ {t u : TypeInt}, t.Valid → t.Subset u → ¬ (u.lo ^^^ u.hi).toInt < 0 →
      ¬ (t.lo ^^^ t.hi).toInt < 0 := by
    intro t u hvalid hsub hu
    have hle := hvalid.toInt_le
    rw [subset_iff] at hsub
    rw [not_lt, zero_le_toInt_xor_iff] at hu ⊢
    omega
  have hzero : ∀ {t u : TypeInt}, t.Valid → t.Subset u → u.lo = 0 → u.hi = 0 →
      t.lo = 0 ∧ t.hi = 0 := by
    intro t u hvalid hsub hlo hhi
    have h := hvalid.eq_of_isCon hsub (isCon_iff.mpr (hlo.trans hhi.symm))
    rwa [hlo] at h
  by_cases hbot : (r0'.lo ^^^ r0'.hi).toInt < 0 ∨ (r1'.lo ^^^ r1'.hi).toInt < 0
  · rw [@CmpUNode.sub_leaf r0' r1', if_pos hbot]
    split
    next h =>
      obtain ⟨hlo, hhi⟩ := hzero hv0 h0 h.1 h.2
      by_cases hs1 : (r1.lo ^^^ r1.hi).toInt < 0
      · rw [CmpUNode.sub_leaf, if_pos (.inr hs1), if_pos ⟨hlo, hhi⟩]
        exact Subset.refl _
      · have hle1 := toNat_between hv1.contains_lo (not_lt.mp hs1)
        have hnat : (0 : BitVec 32).toNat = 0 := rfl
        rw [CmpUNode.sub_leaf, hlo, hhi, if_neg (not_or.mpr ⟨by decide, hs1⟩), hnat]
        split_ifs <;> first | decide | omega
    next =>
      split
      next h =>
        obtain ⟨hlo, hhi⟩ := hzero hv1 h1 h.1 h.2
        by_cases hs0 : (r0.lo ^^^ r0.hi).toInt < 0
        · have hne : ¬ (r0.lo = 0 ∧ r0.hi = 0) := by
            rintro ⟨hlo0, hhi0⟩
            rw [hlo0, hhi0] at hs0
            exact absurd hs0 (by decide)
          rw [CmpUNode.sub_leaf, if_pos (.inl hs0), if_neg hne, if_pos ⟨hlo, hhi⟩]
          exact Subset.refl _
        · have hle0 := toNat_between hv0.contains_lo (not_lt.mp hs0)
          have hnat : (0 : BitVec 32).toNat = 0 := rfl
          rw [CmpUNode.sub_leaf, hlo, hhi, if_neg (not_or.mpr ⟨hs0, by decide⟩), hnat]
          split_ifs <;> first | decide | omega
      next =>
        rw [CmpUNode.sub_leaf]
        split_ifs <;> decide
  · have hbot' := not_or.mp hbot
    have hs0 := hsign hv0 h0 hbot'.1
    have hs1 := hsign hv1 h1 hbot'.2
    have hlo0 := toNat_between (h0.contains hv0.contains_lo) (not_lt.mp hbot'.1)
    have hhi0 := toNat_between (h0.contains hv0.contains_hi) (not_lt.mp hbot'.1)
    have hlo1 := toNat_between (h1.contains hv1.contains_lo) (not_lt.mp hbot'.2)
    have hhi1 := toNat_between (h1.contains hv1.contains_hi) (not_lt.mp hbot'.2)
    have hle0 := toNat_between hv0.contains_lo (not_lt.mp hs0)
    have hle1 := toNat_between hv1.contains_lo (not_lt.mp hs1)
    rw [CmpUNode.sub_leaf, CmpUNode.sub_leaf, if_neg hbot, if_neg (not_or.mpr ⟨hs0, hs1⟩)]
    split_ifs <;> first | decide | omega

/-- On ranges that are not negative the comparison is a signed one. -/
theorem CmpUNode.sub_of_nonneg (hv0 : r0.Valid) (hv1 : r1.Valid) (hn0 : 0 ≤ r0.lo.toInt)
    (hn1 : 0 ≤ r1.lo.toInt) :
    CmpUNode.sub in1 in2 r0 r1 =
      if r0.hi.toInt < r1.lo.toInt then ccLT
      else if r1.hi.toInt < r0.lo.toInt then ccGT
      else if r0.hi.toInt = r1.lo.toInt ∧ r0.lo.toInt = r1.hi.toInt then ccEQ
      else if r1.hi.toInt ≤ r0.lo.toInt then ccGE
      else if r0.hi.toInt ≤ r1.lo.toInt then
        if isModBy (fun x y => x = y) in1 in2 then ccLT else ccLE
      else if isModBy (fun x y => x.uncast = y.uncast) in1 in2 then ccLT else cc := by
  have hle0 := hv0.toInt_le
  have hle1 := hv1.toInt_le
  have hult : ∀ {x y : BitVec 32}, 0 ≤ x.toInt → 0 ≤ y.toInt →
      x.ult y = decide (x.toInt < y.toInt) ∧ x.ule y = decide (x.toInt ≤ y.toInt) := by
    intro x y hx hy
    rw [toInt_eq_toNat_of_nonneg hx, toInt_eq_toNat_of_nonneg hy]
    simp [BitVec.ult, BitVec.ule]
  have hs0 : (r0.lo ^^^ r0.hi).slt 0#32 = false := by
    rw [Bool.eq_false_iff, ne_eq, BitVec.slt_iff_toInt_lt, BitVec.toInt_zero, not_lt,
      zero_le_toInt_xor_iff]
    omega
  have hs1 : (r1.lo ^^^ r1.hi).slt 0#32 = false := by
    rw [Bool.eq_false_iff, ne_eq, BitVec.slt_iff_toInt_lt, BitVec.toInt_zero, not_lt,
      zero_le_toInt_xor_iff]
    omega
  have hsle0 : (0#32).sle r0.lo = true := BitVec.sle_iff_toInt_le.mpr hn0
  have hsle1 : (0#32).sle r1.lo = true := BitVec.sle_iff_toInt_le.mpr hn1
  have hhi0 : 0 ≤ r0.hi.toInt := by omega
  have hhi1 : 0 ≤ r1.hi.toInt := by omega
  simp [CmpUNode.sub, hs0, hs1, hsle0, hsle1, (hult hhi0 hn1).1, (hult hhi0 hn1).2,
    (hult hhi1 hn0).1, (hult hhi1 hn0).2, ← BitVec.toInt_inj]

/-- The hash index check only makes the range smaller. -/
theorem CmpUNode.sub_subset_leaf (hv0 : r0.Valid) (hv1 : r1.Valid) :
    (CmpUNode.sub in1 in2 r0 r1).Subset (CmpUNode.sub (.leaf 0) (.leaf 0) r0 r1) := by
  by_cases hn : 0 ≤ r0.lo.toInt ∧ 0 ≤ r1.lo.toInt
  · have hle0 := hv0.toInt_le
    have hle1 := hv1.toInt_le
    have hleaf : ∀ same, isModBy same (.leaf 0) (.leaf 0) = false := fun _ => rfl
    rw [sub_of_nonneg hv0 hv1 hn.1 hn.2, sub_of_nonneg hv0 hv1 hn.1 hn.2]
    simp only [hleaf, Bool.false_eq_true, if_false]
    split_ifs <;> decide
  · rw [sub_eq_leaf]
    · exact Subset.refl _
    · rw [Bool.eq_false_iff, ne_eq, Bool.and_eq_true, Bool.and_eq_true, BitVec.sle_iff_toInt_le,
        BitVec.sle_iff_toInt_le]
      exact fun h => hn h.1

/-- The hash index check answers for the larger ranges, but not for the smaller ones. -/
structure CmpUNode.Narrows (in1 in2 : Node) (r0 r1 r0' r1' : TypeInt) : Prop where
  isModBy : isModBy (fun x y => x.uncast = y.uncast) in1 in2 = true
  /-- It is asked about the larger ranges. -/
  nonneg : 0 ≤ r0'.lo.toInt ∧ 0 ≤ r1'.lo.toInt
  /-- Their order does not answer. -/
  overlap : r0'.lo.toInt < r1'.hi.toInt ∧
    (Opto.isModBy (fun x y => x = y) in1 in2 = true ∨ r0'.hi.toInt ≠ r1'.lo.toInt)
  /-- The order of the smaller ranges does answer, and it is not less. -/
  decided : r1.hi.toInt ≤ r0.lo.toInt ∨
    (r0.hi.toInt = r1.lo.toInt ∧ Opto.isModBy (fun x y => x = y) in1 in2 = false)

theorem CmpUNode.sub_mono_iff (hv0 : r0.Valid) (hv1 : r1.Valid) (hv0' : r0'.Valid)
    (hv1' : r1'.Valid) (h0 : r0.Subset r0') (h1 : r1.Subset r1') :
    (CmpUNode.sub in1 in2 r0 r1).Subset (CmpUNode.sub in1 in2 r0' r1') ↔
      ¬ CmpUNode.Narrows in1 in2 r0 r1 r0' r1' := by
  by_cases hhack : (0 ≤ r0'.lo.toInt ∧ 0 ≤ r1'.lo.toInt) ∧
      isModBy (fun x y => x.uncast = y.uncast) in1 in2 = true
  · obtain ⟨hn, hmod⟩ := hhack
    have hle0 := hv0.toInt_le
    have hle1 := hv1.toInt_le
    have hsub0 := subset_iff.mp h0
    have hsub1 := subset_iff.mp h1
    rw [sub_of_nonneg hv0 hv1 (by omega) (by omega), sub_of_nonneg hv0' hv1' hn.1 hn.2, hmod]
    constructor
    · rintro h ⟨-, -, hoverlap, hdecided⟩
      revert h hoverlap hdecided
      generalize isModBy (fun x y => x = y) in1 in2 = same
      cases same <;>
        simp only [Bool.false_eq_true, if_false, if_true, false_or, true_or, and_true, and_false,
          or_false, reduceCtorEq] <;>
        intro h hoverlap hdecided <;> revert h <;> split_ifs <;> first | decide | omega
    · intro hstep
      have hnot : ¬ ((r0'.lo.toInt < r1'.hi.toInt ∧
          (isModBy (fun x y => x = y) in1 in2 = true ∨ r0'.hi.toInt ≠ r1'.lo.toInt)) ∧
          (r1.hi.toInt ≤ r0.lo.toInt ∨
            (r0.hi.toInt = r1.lo.toInt ∧ isModBy (fun x y => x = y) in1 in2 = false))) :=
        fun h => hstep ⟨hmod, hn, h.1, h.2⟩
      revert hnot
      generalize isModBy (fun x y => x = y) in1 in2 = same
      cases same <;>
        simp only [Bool.false_eq_true, if_false, if_true, false_or, true_or, and_true, and_false,
          or_false, reduceCtorEq] <;>
        intro hnot <;> split_ifs <;> first | decide | omega
  · constructor
    · rintro - ⟨hmod, hn, -, -⟩
      exact hhack ⟨hn, hmod⟩
    · intro
      rw [@sub_eq_leaf in1 in2 r0' r1']
      · exact (sub_subset_leaf hv0 hv1).trans (sub_leaf_mono hv0 hv1 h0 h1)
      · rw [Bool.eq_false_iff, ne_eq, Bool.and_eq_true, Bool.and_eq_true, BitVec.sle_iff_toInt_le,
          BitVec.sle_iff_toInt_le]
        exact hhack

end CompareUnsigned

end HotSpot.Opto
