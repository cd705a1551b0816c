import HotSpot.Opto.RingMonotone

/-! # Range inference and conditional constant propagation

`PhaseCCP::analyze` asserts that the type of a node only widens. It does if `Value` is
monotone: larger ranges of the inputs give a larger range of the node. This holds but
for two kinds of steps.
-/

namespace HotSpot.Opto

open TypeInteger

/-! ## Value on ranges -/

/-- Both types are integers, and the second one contains the first. -/
def Ty.SubsetAt (s : Size) (ty ty' : Ty) : Prop :=
  ∃ t t', ty = .integer s t ∧ ty' = .integer s t' ∧ t.Subset t'

@[simp] theorem Ty.subsetAt_integer {s : Size} {t t' : TypeInteger s.bits} :
    (Ty.integer s t).SubsetAt s (Ty.integer s t') ↔ t.Subset t' := by
  simp [Ty.SubsetAt]

section Value

variable {s : Size} {r0 r1 r0' r1' : TypeInteger s.bits} {in1 in2 : Node}

theorem Size.bits_pos (s : Size) : 2 < s.bits := by
  cases s <;> decide

theorem AddNode.value_integer {c : BitVec s.bits}
    {ring : TypeInteger s.bits → TypeInteger s.bits → TypeInteger s.bits} (hv0 : r0.Valid)
    (hv1 : r1.Valid) :
    AddNode.value s (con c) ring (.integer s r0) (.integer s r1) =
      .integer s (if r0 = full s.bits ∨ r1 = full s.bits then full s.bits
        else if r0 = con c then r1 else if r1 = con c then r0 else ring r0 r1) := by
  unfold AddNode.value
  simp only [reduceCtorEq, or_self, if_false, or_false, Ty.higherEqual_integer,
    hv0.higherEqual_con_iff, hv1.higherEqual_con_iff, withRanges, Ty.isa_integer,
    Ty.integer.injEq, heq_eq_eq, true_and]
  split_ifs <;> rfl

theorem SubNode.value_integer {sOut : Size} {c bot : TypeInteger sOut.bits}
    {sub : TypeInteger s.bits → TypeInteger s.bits → TypeInteger sOut.bits} :
    SubNode.value s sOut c bot in1 in2 sub (.integer s r0) (.integer s r1) =
      .integer sOut (if in1.uncast = in2.uncast then c else sub r0 r1) := by
  unfold SubNode.value
  simp only [reduceCtorEq, or_self, if_false, withRanges, Ty.isa_integer]
  split_ifs <;> rfl

theorem MulNode.value_integer
    {ring : TypeInteger s.bits → TypeInteger s.bits → TypeInteger s.bits} (hv0 : r0.Valid)
    (hv1 : r1.Valid) :
    MulNode.value s ring (.integer s r0) (.integer s r1) =
      .integer s (if r0 = zero s.bits ∨ r1 = zero s.bits then zero s.bits else ring r0 r1) := by
  unfold MulNode.value
  simp only [reduceCtorEq, or_self, if_false, Ty.higherEqual_integer, zero,
    hv0.higherEqual_con_iff, hv1.higherEqual_con_iff, withRanges, Ty.isa_integer]
  split_ifs <;> simp_all

theorem divValue_integer :
    divValue s in1 in2 (.integer s r0) (.integer s r1) =
      .integer s (if in1 = in2 then one s.bits
        else if r0 = full s.bits ∨ r1 = full s.bits then full s.bits else divRing r0 r1) := by
  unfold divValue
  simp only [reduceCtorEq, or_self, if_false, or_false, withRanges, Ty.isa_integer,
    Ty.integer.injEq, heq_eq_eq, true_and]
  split_ifs <;> rfl

theorem modValue_integer :
    modValue s in1 in2 (.integer s r0) (.integer s r1) =
      .integer s (if r0 = zero s.bits then zero s.bits else if in1 = in2 then zero s.bits
        else if r0 = full s.bits ∨ r1 = full s.bits then full s.bits else modRing r0 r1) := by
  unfold modValue
  simp only [reduceCtorEq, or_self, if_false, or_false, withRanges, Ty.isa_integer,
    Ty.integer.injEq, heq_eq_eq, true_and]
  split_ifs <;> rfl

theorem shiftValue_integer {g : Ty → Bool}
    {shifted : TypeInteger s.bits → Nat → TypeInt → TypeInteger s.bits} {r2 : TypeInt} :
    shiftValue s g shifted (.integer s r0) (.integer .int r2) =
      .integer s (if r0 = zero s.bits then zero s.bits else if r2 = zero 32 then r0
        else if g (.integer s r0) = true ∨ r2 = full 32 ∨ r2.isCon = false then full s.bits
        else if shiftCount s.bits r2.lo = 0 then r0
        else shifted r0 (shiftCount s.bits r2.lo) r2) := by
  unfold shiftValue
  simp only [reduceCtorEq, or_self, if_false, or_false, withRanges, Ty.isa_integer,
    Ty.integer.injEq, heq_eq_eq, true_and]
  split_ifs <;> simp_all

/-! ## Larger types of the inputs -/

theorem AddNode.value_mono {c : BitVec s.bits} {f : BitVec s.bits → BitVec s.bits → BitVec s.bits}
    {ring : TypeInteger s.bits → TypeInteger s.bits → TypeInteger s.bits}
    (hleft : ∀ y, f c y = y) (hright : ∀ x, f x c = x)
    (hsound : ∀ {x y}, r0'.Contains x → r1'.Contains y → (ring r0' r1').Contains (f x y))
    (hv0 : r0.Valid) (hv1 : r1.Valid) (hv0' : r0'.Valid) (hv1' : r1'.Valid) (h0 : r0.Within r0')
    (h1 : r1.Within r1')
    (hring : r0 ≠ con c → r1 ≠ con c → (ring r0 r1).Subset (ring r0' r1')) :
    (AddNode.value s (con c) ring (.integer s r0) (.integer s r1)).SubsetAt s
      (AddNode.value s (con c) ring (.integer s r0') (.integer s r1')) := by
  have hbits : 0 < s.bits := by have := s.bits_pos; omega
  rw [AddNode.value_integer hv0 hv1, AddNode.value_integer hv0' hv1', Ty.subsetAt_integer]
  by_cases hfull : r0' = full s.bits ∨ r1' = full s.bits
  · rw [if_pos hfull]
    exact subset_full hbits _
  · rw [if_neg hfull, if_neg]
    · by_cases he0 : r0' = con c
      · subst he0
        rw [if_pos rfl, if_pos (h0.eq_con hv0)]
        exact h1.subset
      · rw [if_neg he0]
        by_cases he1 : r1' = con c
        · subst he1
          rw [if_pos rfl, if_pos (h1.eq_con hv1)]
          split
          next he =>
            rw [h1.eq_con hv1, ← he]
            exact h0.subset
          next => exact h0.subset
        · rw [if_neg he1]
          split
          next he =>
            subst he
            have hmem : ∀ {y}, r1.Contains y → (ring r0' r1').Contains y := by
              intro y hy
              rw [← hleft y]
              exact hsound (h0.subset.contains (contains_con.mpr rfl)) (h1.subset.contains hy)
            exact subset_of_contains (hmem hv1.contains_lo) (hmem hv1.contains_hi)
          next hne0 =>
            split
            next he =>
              subst he
              have hmem : ∀ {x}, r0.Contains x → (ring r0' r1').Contains x := by
                intro x hx
                rw [← hright x]
                exact hsound (h0.subset.contains hx) (h1.subset.contains (contains_con.mpr rfl))
              exact subset_of_contains (hmem hv0.contains_lo) (hmem hv0.contains_hi)
            next hne1 => exact hring hne0 hne1
    · rintro (rfl | rfl)
      · exact hfull (.inl (h0.eq_full hbits hv0'))
      · exact hfull (.inr (h1.eq_full hbits hv1'))

theorem SubNode.value_mono {sOut : Size} {c bot : TypeInteger sOut.bits}
    {sub : TypeInteger s.bits → TypeInteger s.bits → TypeInteger sOut.bits}
    (hsub : in1.uncast ≠ in2.uncast → (sub r0 r1).Subset (sub r0' r1')) :
    (SubNode.value s sOut c bot in1 in2 sub (.integer s r0) (.integer s r1)).SubsetAt sOut
      (SubNode.value s sOut c bot in1 in2 sub (.integer s r0') (.integer s r1')) := by
  rw [SubNode.value_integer, SubNode.value_integer, Ty.subsetAt_integer]
  split
  next => exact Subset.refl _
  next hne => exact hsub hne

theorem MulNode.value_mono {f : BitVec s.bits → BitVec s.bits → BitVec s.bits}
    {ring : TypeInteger s.bits → TypeInteger s.bits → TypeInteger s.bits}
    (hleft : ∀ y, f 0#s.bits y = 0#s.bits) (hright : ∀ x, f x 0#s.bits = 0#s.bits)
    (hsound : ∀ {x y}, r0'.Contains x → r1'.Contains y → (ring r0' r1').Contains (f x y))
    (hv0 : r0.Valid) (hv1 : r1.Valid) (hv0' : r0'.Valid) (hv1' : r1'.Valid) (h0 : r0.Within r0')
    (h1 : r1.Within r1') (hring : (ring r0 r1).Subset (ring r0' r1')) :
    (MulNode.value s ring (.integer s r0) (.integer s r1)).SubsetAt s
      (MulNode.value s ring (.integer s r0') (.integer s r1')) := by
  rw [MulNode.value_integer hv0 hv1, MulNode.value_integer hv0' hv1', Ty.subsetAt_integer]
  split
  next hzero =>
    rw [zero, con_subset_iff]
    split
    next => exact contains_con.mpr rfl
    next =>
      rcases hzero with rfl | rfl
      · rw [← hleft r1.lo]
        exact hsound (h0.subset.contains (contains_con.mpr rfl))
          (h1.subset.contains hv1.contains_lo)
      · rw [← hright r0.lo]
        exact hsound (h0.subset.contains hv0.contains_lo)
          (h1.subset.contains (contains_con.mpr rfl))
  next hne =>
    rw [if_neg]
    · exact hring
    · rintro (rfl | rfl)
      · exact hne (.inl (h0.eq_con hv0))
      · exact hne (.inr (h1.eq_con hv1))

theorem divValue_mono (hv0 : r0.Valid) (hv1 : r1.Valid) (hv0' : r0'.Valid) (hv1' : r1'.Valid)
    (h0 : r0.Within r0') (h1 : r1.Within r1') :
    (divValue s in1 in2 (.integer s r0) (.integer s r1)).SubsetAt s
      (divValue s in1 in2 (.integer s r0') (.integer s r1')) := by
  have hbits := s.bits_pos
  rw [divValue_integer, divValue_integer, Ty.subsetAt_integer]
  by_cases hsame : in1 = in2
  · rw [if_pos hsame, if_pos hsame]
    exact Subset.refl _
  · rw [if_neg hsame, if_neg hsame]
    by_cases hfull : r0' = full s.bits ∨ r1' = full s.bits
    · rw [if_pos hfull]
      exact subset_full (by omega) _
    · rw [if_neg hfull, if_neg]
      · exact divRing_mono hbits hv0 hv1 h0.subset h1.subset
      · rintro (rfl | rfl)
        · exact hfull (.inl (h0.eq_full (by omega) hv0'))
        · exact hfull (.inr (h1.eq_full (by omega) hv1'))

/-- A remainder of zero may be zero, even by zero. -/
theorem contains_modRing_zero (h0 : r0.Contains 0#s.bits) : (modRing r0 r1).Contains 0#s.bits := by
  have hbits := s.bits_pos
  have hpos : (pos s.bits).Contains 0#s.bits := by
    have hmax := BitVec.toInt_intMax (w := s.bits)
    have : (0 : Int) < 2 ^ (s.bits - 1) := by positivity
    rw [pos, contains_make, BitVec.toInt_zero]
    omega
  unfold modRing
  split
  next =>
    split
    next => exact hpos
    next => exact contains_full (by omega) _
  next hcon =>
    simp only [Bool.or_eq_true, decide_eq_true_eq, not_or, Bool.not_eq_false] at hcon
    split
    next => exact hpos
    next =>
      split
      next => exact contains_con.mpr rfl
      next => rw [contains_con, ← h0.eq_of_isCon hcon.1, BitVec.zero_srem]

theorem modValue_mono (hv0 : r0.Valid) (hv1 : r1.Valid) (hv0' : r0'.Valid) (hv1' : r1'.Valid)
    (h0 : r0.Within r0') (h1 : r1.Within r1') :
    (modValue s in1 in2 (.integer s r0) (.integer s r1)).SubsetAt s
      (modValue s in1 in2 (.integer s r0') (.integer s r1')) := by
  have hbits := s.bits_pos
  rw [modValue_integer, modValue_integer, Ty.subsetAt_integer]
  split
  next he =>
    subst he
    rw [zero, con_subset_iff]
    split
    next => exact contains_con.mpr rfl
    next =>
      split
      next => exact contains_con.mpr rfl
      next =>
        split
        next => exact contains_full (by omega) _
        next => exact contains_modRing_zero (h0.subset.contains (contains_con.mpr rfl))
  next hne =>
    rw [if_neg fun he : r0' = zero s.bits => hne ((he ▸ h0).eq_con hv0)]
    by_cases hsame : in1 = in2
    · rw [if_pos hsame, if_pos hsame]
      exact Subset.refl _
    · rw [if_neg hsame, if_neg hsame]
      by_cases hfull : r0' = full s.bits ∨ r1' = full s.bits
      · rw [if_pos hfull]
        exact subset_full (by omega) _
      · rw [if_neg hfull, if_neg]
        · exact modRing_mono (by omega) hv0 hv1 h0.subset h1.subset
        · rintro (rfl | rfl)
          · exact hfull (.inl (h0.eq_full (by omega) hv0'))
          · exact hfull (.inr (h1.eq_full (by omega) hv1'))

/-- The left shift gives up on larger types as well. -/
theorem giveUp_mono (hbits : 0 < s.bits) (hv0' : r0'.Valid) (h0 : r0.Within r0')
    (hfull : decide (Ty.integer s r0 = .integer s (full s.bits)) = true) :
    decide (Ty.integer s r0' = .integer s (full s.bits)) = true := by
  obtain rfl : r0 = full s.bits := by simpa using hfull
  simpa using h0.eq_full hbits hv0'

theorem shiftValue_mono {f : BitVec s.bits → Nat → BitVec s.bits} {g : Ty → Bool}
    {shifted : TypeInteger s.bits → Nat → TypeInt → TypeInteger s.bits} {r2 r2' : TypeInt}
    (hzero : ∀ k, f 0#s.bits k = 0#s.bits)
    (hsound : ∀ {x k}, 0 < k → k < s.bits → r0'.Contains x → (shifted r0' k r2').Contains (f x k))
    (hgiveUp : g (.integer s r0) = true → g (.integer s r0') = true)
    (hv0 : r0.Valid) (hv2 : r2.Valid) (hv2' : r2'.Valid) (h0 : r0.Within r0')
    (h2 : r2.Within r2')
    (hshifted : ∀ k, 0 < k → k < s.bits → (shifted r0 k r2).Subset (shifted r0' k r2')) :
    (shiftValue s g shifted (.integer s r0) (.integer .int r2)).SubsetAt s
      (shiftValue s g shifted (.integer s r0') (.integer .int r2')) := by
  have hbits := s.bits_pos
  rw [shiftValue_integer, shiftValue_integer, Ty.subsetAt_integer]
  have hcount : ∀ {n}, shiftCount s.bits n < s.bits := Nat.mod_lt _ (by omega)
  split
  next he =>
    subst he
    have hmem := h0.subset.contains (contains_con.mpr rfl)
    rw [zero, con_subset_iff]
    split_ifs
    · exact contains_con.mpr rfl
    · exact hmem
    · exact contains_full (by omega) _
    · exact hmem
    · rw [← hzero (shiftCount s.bits r2'.lo)]
      exact hsound (by omega) hcount hmem
  next hne =>
    rw [if_neg fun he : r0' = zero s.bits => hne ((he ▸ h0).eq_con hv0)]
    by_cases he2 : r2' = zero 32
    · subst he2
      rw [if_pos (show r2 = zero 32 from h2.eq_con hv2), if_pos rfl]
      exact h0.subset
    · rw [if_neg he2]
      by_cases hup : g (.integer s r0') = true ∨ r2' = full 32 ∨ r2'.isCon = false
      · rw [if_pos hup]
        exact subset_full (by omega) _
      · -- Both counts are the same constant.
        have hcon : r2'.isCon = true := by
          simpa using fun h => hup (.inr (.inr h))
        have hlo := (hv2.eq_of_isCon h2.subset hcon).1
        rw [if_neg hup]
        split
        next he =>
          rw [← hlo, he, if_pos (show shiftCount s.bits (zero 32).lo = 0 by
            simp [zero, con, shiftCount])]
          exact h0.subset
        next =>
          rw [if_neg, hlo]
          · split
            next => exact h0.subset
            next => exact hshifted _ (by omega) hcount
          · rintro (h | rfl | h)
            · exact hup (.inl (hgiveUp h))
            · exact hup (.inr (.inl (h2.eq_full (by decide) hv2')))
            · rw [hv2.isCon_of_subset h2.subset hcon] at h
              cases h

end Value

/-! ## The steps of conditional constant propagation -/

/-- The steps to larger types of the inputs at which `Value` does not get larger. -/
def BinOp.NarrowingStep (in1 in2 : Node) : (op : BinOp) → TypeInteger op.in1Size.bits →
    TypeInteger op.in2Size.bits → TypeInteger op.in1Size.bits → TypeInteger op.in2Size.bits → Prop
  -- `XorINode::add_ring` knows a boolean on the left only.
  | .arith .int .xor, t1, t2, t1', t2' => t1 = one 32 ∧ t2 = bool ∧ t1' = bool ∧ t2' = bool
  | .cmpU, t1, t2, t1', t2' =>
    in1.uncast ≠ in2.uncast ∧ CmpUNode.Narrows in1 in2 t1 t2 t1' t2'
  | _, _, _, _, _ => False

theorem value_xor (in1 in2 : Node) (t1 t2 : Ty) :
    (BinOp.arith .int .xor).value in1 in2 t1 t2 =
      AddNode.value .int (con 0#32) XorINode.addRing t1 t2 := rfl

/-- A boolean on the right and a 1 on the left that turns out to be a boolean. -/
theorem xor_narrows (in1 in2 : Node) :
    ¬ ((BinOp.arith .int .xor).value in1 in2 (.integer .int (one 32))
      (.integer .int bool)).SubsetAt .int
      ((BinOp.arith .int .xor).value in1 in2 (.integer .int bool) (.integer .int bool)) := by
  have hbefore : AddNode.value .int (con 0#32) XorINode.addRing (.integer .int (one 32))
      (.integer .int bool) = .integer .int (full 32) := by decide
  have hafter : AddNode.value .int (con 0#32) XorINode.addRing (.integer .int bool)
      (.integer .int bool) = .integer .int bool := by decide
  rw [value_xor, value_xor, hbefore, hafter, Ty.subsetAt_integer]
  decide

theorem cmpU_mono_iff {in1 in2 : Node} {t1 t2 t1' t2' : TypeInt} (hv1 : t1.Valid) (hv2 : t2.Valid)
    (hv1' : t1'.Valid) (hv2' : t2'.Valid) (h1 : t1.Subset t1') (h2 : t2.Subset t2') :
    (BinOp.cmpU.value in1 in2 (.integer .int t1) (.integer .int t2)).SubsetAt .int
      (BinOp.cmpU.value in1 in2 (.integer .int t1') (.integer .int t2')) ↔
      ¬ (in1.uncast ≠ in2.uncast ∧ CmpUNode.Narrows in1 in2 t1 t2 t1' t2') := by
  rw [BinOp.value, BinOp.value, SubNode.value_integer, SubNode.value_integer, Ty.subsetAt_integer]
  by_cases hsame : in1.uncast = in2.uncast
  · simp [hsame, Subset.refl]
  · rw [if_neg hsame, if_neg hsame, CmpUNode.sub_mono_iff hv1 hv2 hv1' hv2' h1 h2]
    simp [hsame]

/-- `Value` is monotone at exactly the other steps. -/
theorem value_mono_iff {op : BinOp} {in1 in2 : Node} {t1 t1' : TypeInteger op.in1Size.bits}
    {t2 t2' : TypeInteger op.in2Size.bits} (hv1 : t1.Valid) (hv2 : t2.Valid) (hv1' : t1'.Valid)
    (hv2' : t2'.Valid) (h1 : t1.Within t1') (h2 : t2.Within t2') :
    (op.value in1 in2 (.integer op.in1Size t1) (.integer op.in2Size t2)).SubsetAt op.outSize
      (op.value in1 in2 (.integer op.in1Size t1') (.integer op.in2Size t2')) ↔
      ¬ op.NarrowingStep in1 in2 t1 t2 t1' t2' := by
  -- Where there is no such step the claim is monotonicity.
  have hholds : ∀ {p q : Prop}, p → ¬ q → (p ↔ ¬ q) := fun hp hq => ⟨fun _ => hq, fun _ => hp⟩
  cases op with
  | arith s op =>
    have hbits : 0 < s.bits := by have := s.bits_pos; omega
    cases op with
    | add =>
      apply hholds _ (by cases s <;> exact id)
      exact AddNode.value_mono (f := (· + ·)) BitVec.zero_add BitVec.add_zero
        (addRing_sound hbits) hv1 hv2 hv1' hv2' h1 h2
        (fun _ _ => addRing_mono hbits hv1 hv2 h1.subset h2.subset)
    | sub =>
      apply hholds _ (by cases s <;> exact id)
      exact SubNode.value_mono fun _ => subRing_mono hbits hv1 hv2 h1.subset h2.subset
    | mul =>
      apply hholds _ (by cases s <;> exact id)
      exact MulNode.value_mono (f := (· * ·)) (fun _ => BitVec.zero_mul)
        (fun _ => BitVec.mul_zero) (mulRing_sound hbits) hv1 hv2 hv1' hv2' h1 h2
        (mulRing_mono hbits hv1 hv2 h1.subset h2.subset)
    | div =>
      apply hholds _ (by cases s <;> exact id)
      exact divValue_mono hv1 hv2 hv1' hv2' h1 h2
    | mod =>
      apply hholds _ (by cases s <;> exact id)
      exact modValue_mono hv1 hv2 hv1' hv2' h1 h2
    | and =>
      apply hholds _ (by cases s <;> exact id)
      cases s with
      | int =>
        exact MulNode.value_mono (f := (· &&& ·)) (fun _ => BitVec.zero_and)
          (fun _ => BitVec.and_zero) AndINode.mulRing_sound hv1 hv2 hv1' hv2' h1 h2
          (AndINode.mulRing_mono hv1 hv2 h1 h2)
      | long =>
        exact MulNode.value_mono (f := (· &&& ·)) (fun _ => BitVec.zero_and)
          (fun _ => BitVec.and_zero)
          (fun hx hy => andRing_sound hbits hx hy (contains_full hbits _)) hv1 hv2 hv1' hv2'
          h1 h2 (andRing_mono hbits hv1 hv2 h1.subset h2.subset (contains_full hbits _)
            fun _ _ => Subset.refl _)
    | or =>
      apply hholds _ (by cases s <;> exact id)
      cases s with
      | int =>
        exact AddNode.value_mono (f := (· ||| ·)) (fun _ => BitVec.zero_or)
          (fun _ => BitVec.or_zero) OrINode.addRing_sound hv1 hv2 hv1' hv2' h1 h2
          (OrINode.addRing_mono hv1 hv2 h1 h2)
      | long =>
        exact AddNode.value_mono (f := (· ||| ·)) (fun _ => BitVec.zero_or)
          (fun _ => BitVec.or_zero) (bitRing_sound hbits) hv1 hv2 hv1' hv2' h1 h2
          (fun _ _ => bitRing_mono hbits hv1 hv2 h1.subset h2.subset)
    | xor =>
      cases s with
      | int =>
        constructor
        · rintro h ⟨rfl, rfl, rfl, rfl⟩
          exact xor_narrows in1 in2 h
        · intro hstep
          exact AddNode.value_mono (f := (· ^^^ ·)) (fun _ => BitVec.zero_xor)
            (fun _ => BitVec.xor_zero) XorINode.addRing_sound hv1 hv2 hv1' hv2' h1 h2
            (fun hne1 hne2 => XorINode.addRing_mono hv1 hv2 h1 h2 hne1 hne2 hstep)
      | long =>
        apply hholds _ id
        exact AddNode.value_mono (f := (· ^^^ ·)) (fun _ => BitVec.zero_xor)
          (fun _ => BitVec.xor_zero) (bitRing_sound hbits) hv1 hv2 hv1' hv2' h1 h2
          (fun _ _ => bitRing_mono hbits hv1 hv2 h1.subset h2.subset)
    | lshift =>
      apply hholds _ (by cases s <;> exact id)
      exact shiftValue_mono (f := (· <<< ·)) (g := fun t => t = .integer s (full s.bits))
        BitVec.zero_shiftLeft (fun _ hk hx => lshiftRing_sound hk hx)
        (giveUp_mono hbits hv1' h1) hv1 hv2 hv2' h1 h2
        (fun _ _ hk => lshiftRing_mono hk hv1 h1.subset)
    | rshift =>
      apply hholds _ (by cases s <;> exact id)
      exact shiftValue_mono (f := BitVec.sshiftRight) (g := fun _ => false)
        (fun _ => BitVec.zero_sshiftRight) (fun _ _ hx => rshiftRing_sound hx) id hv1 hv2 hv2'
        h1 h2 (fun _ _ _ => rshiftRing_mono hv1 h1.subset)
    | urshift =>
      apply hholds _ (by cases s <;> exact id)
      exact shiftValue_mono (f := (· >>> ·)) (g := fun _ => false)
        (fun _ => BitVec.zero_ushiftRight) (fun hk _ hx => urshiftRing_sound hk hx) id hv1 hv2
        hv2' h1 h2 (fun _ hk _ => urshiftRing_mono hbits hk hv1 h1.subset)
  | cmp s =>
    apply hholds _ id
    exact SubNode.value_mono fun _ => cmpRing_mono hv1 hv2 h1.subset h2.subset
  | cmpU =>
    exact cmpU_mono_iff hv1 hv2 hv1' hv2' h1.subset h2.subset
  | minI =>
    apply hholds _ id
    exact AddNode.value_mono (f := fun x y => if x.slt y then x else y) MinINode.id_left
      MinINode.id_right MinINode.addRing_sound hv1 hv2 hv1' hv2' h1 h2
      (fun _ _ => MinINode.addRing_mono h1.subset h2.subset)
  | maxI =>
    apply hholds _ id
    exact AddNode.value_mono (f := fun x y => if x.slt y then y else x) MaxINode.id_left
      MaxINode.id_right MaxINode.addRing_sound hv1 hv2 hv1' hv2' h1 h2
      (fun _ _ => MaxINode.addRing_mono h1.subset h2.subset)
  | mulHiL =>
    apply hholds _ id
    exact Ty.subsetAt_integer.mpr (Subset.refl _)

/-- `OrI` is monotone where `XorI` is not. -/
theorem value_mono_iff_or_bool :
    ((BinOp.arith .int .or).value (.leaf 0) (.leaf 1) (.integer .int (one 32))
      (.integer .int bool)).SubsetAt .int
      ((BinOp.arith .int .or).value (.leaf 0) (.leaf 1) (.integer .int bool)
        (.integer .int bool)) := by
  have hone : (one 32).Made := ⟨⟨by decide, by decide⟩, by decide⟩
  have hbool : bool.Made := ⟨⟨by decide, by decide⟩, by decide⟩
  have hwithin : (one 32).Within bool := hone.within hbool (by decide)
  have hsame : bool.Within bool := within_of_higherEqual (by decide)
  exact (@value_mono_iff (.arith .int .or) (.leaf 0) (.leaf 1) (one 32) bool bool bool hone.valid
    hbool.valid hbool.valid hbool.valid hwithin hsame).mpr id

/-- The first input of an `XorI` widens from 1 to a boolean, and the type of the node falls
from `INT` to `BOOL`. -/
theorem xor_value_not_monotone :
    ((one 32).Made ∧ bool.Made ∧ (one 32).Subset bool) ∧
    ¬ ((BinOp.arith .int .xor).value (.leaf 0) (.leaf 1) (.integer .int (one 32))
      (.integer .int bool)).SubsetAt .int
      ((BinOp.arith .int .xor).value (.leaf 0) (.leaf 1) (.integer .int bool)
        (.integer .int bool)) :=
  ⟨⟨⟨⟨by decide, by decide⟩, by decide⟩, ⟨⟨by decide, by decide⟩, by decide⟩, by decide⟩,
    xor_narrows _ _⟩

end HotSpot.Opto
