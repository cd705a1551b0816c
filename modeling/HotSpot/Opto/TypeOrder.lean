import HotSpot.Opto.ValueSound

/-! # Ranges that contain one another

The order in which `PhaseCCP` moves the types of nodes. The tests of `Value` against
`INT`, `BOOL`, `ZERO` and `ONE` compare the widen count as well, so that the order has
to know something about it.
-/

namespace HotSpot.Opto

namespace TypeInteger

variable {w : Nat}

/-- The range of a type contains that of another. -/
def Subset (t u : TypeInteger w) : Prop := u.lo.sle t.lo ∧ t.hi.sle u.hi

instance (t u : TypeInteger w) : Decidable (t.Subset u) := inferInstanceAs (Decidable (_ ∧ _))

/-- A type of at least one value. -/
structure Valid (t : TypeInteger w) : Prop where
  le : t.lo.sle t.hi
  widen_le : t.widen ≤ widenMax

/-- `make` chooses the widen count of this range. -/
def FixedWiden (t : TypeInteger w) : Prop :=
  (t.hi - t.lo).toNat ≤ smallint ∨ BitVec.allOnes w ≤ t.hi - t.lo

/-- `u` contains `t`. If `make` chooses the widen count of `u`, it is no smaller. -/
structure Within (t u : TypeInteger w) : Prop where
  subset : t.Subset u
  widen_le : u.FixedWiden → t.widen ≤ u.widen

/-- A type as `make` builds it. -/
structure Made (t : TypeInteger w) : Prop where
  valid : t.Valid
  normal : make t.lo t.hi t.widen = t

variable {t u : TypeInteger w}

theorem subset_iff : t.Subset u ↔ u.lo.toInt ≤ t.lo.toInt ∧ t.hi.toInt ≤ u.hi.toInt := by
  rw [Subset, BitVec.sle_iff_toInt_le, BitVec.sle_iff_toInt_le]

theorem Subset.refl (t : TypeInteger w) : t.Subset t := subset_iff.mpr ⟨le_rfl, le_rfl⟩

theorem Subset.trans {v : TypeInteger w} (htu : t.Subset u) (huv : u.Subset v) : t.Subset v := by
  rw [subset_iff] at *
  omega

theorem Subset.contains (h : t.Subset u) {x : BitVec w} (hx : t.Contains x) : u.Contains x := by
  rw [subset_iff] at h
  rw [contains_iff] at hx ⊢
  omega

/-- A range lies in another one if its ends do. -/
theorem subset_of_contains (hlo : u.Contains t.lo) (hhi : u.Contains t.hi) : t.Subset u := by
  rw [contains_iff] at hlo hhi
  exact subset_iff.mpr ⟨hlo.1, hhi.2⟩

theorem con_subset_iff {c : BitVec w} : (con c).Subset u ↔ u.Contains c := by
  constructor
  · intro h
    exact h.contains (contains_con.mpr rfl)
  · intro h
    exact subset_of_contains h h

theorem subset_full (hw : 0 < w) (t : TypeInteger w) : t.Subset (full w) :=
  subset_of_contains (contains_full hw _) (contains_full hw _)

theorem intMax_sub_intMin : BitVec.intMax w - BitVec.intMin w = BitVec.allOnes w := by
  rw [← BitVec.intMax_add_one, ← BitVec.neg_one_eq_allOnes, BitVec.sub_eq_add_neg, BitVec.neg_add,
    BitVec.sub_eq_add_neg, ← BitVec.add_assoc, BitVec.add_right_neg, BitVec.zero_add]

theorem full_eq (hw : 0 < w) : full w = ⟨BitVec.intMin w, BitVec.intMax w, widenMax⟩ := by
  have hle : (BitVec.intMin w).sle (BitVec.intMax w) = true := by
    have hpos : (0 : Int) < 2 ^ (w - 1) := by positivity
    rw [BitVec.sle_iff_toInt_le, BitVec.toInt_intMin_of_pos hw, BitVec.toInt_intMax]
    omega
  simp [full, make, hle, intMax_sub_intMin]

@[simp] theorem full_lo : (full w).lo = BitVec.intMin w := make_lo _ _ _

@[simp] theorem full_hi : (full w).hi = BitVec.intMax w := make_hi _ _ _

/-- The length of a range. -/
theorem toNat_hi_sub_lo (h : t.lo.sle t.hi) :
    ((t.hi - t.lo).toNat : Int) = t.hi.toInt - t.lo.toInt := by
  have hle := BitVec.sle_iff_toInt_le.mp h
  have hhi := BitVec.toInt_eq_toNat_cond t.hi
  have hlo := BitVec.toInt_eq_toNat_cond t.lo
  have := t.hi.isLt
  have := t.lo.isLt
  rw [BitVec.toNat_sub]
  split at hhi <;> split at hlo
  · rw [show 2 ^ w - t.lo.toNat + t.hi.toNat = (t.hi.toNat - t.lo.toNat) + 2 ^ w by omega,
      Nat.add_mod_right, Nat.mod_eq_of_lt (by omega)]
    omega
  · rw [Nat.mod_eq_of_lt (by omega)]
    omega
  · omega
  · rw [show 2 ^ w - t.lo.toNat + t.hi.toNat = (t.hi.toNat - t.lo.toNat) + 2 ^ w by omega,
      Nat.add_mod_right, Nat.mod_eq_of_lt (by omega)]
    omega

namespace Valid

theorem toInt_le (h : t.Valid) : t.lo.toInt ≤ t.hi.toInt := BitVec.sle_iff_toInt_le.mp h.le

theorem contains_lo (h : t.Valid) : t.Contains t.lo := contains_iff.mpr ⟨le_rfl, h.toInt_le⟩

theorem contains_hi (h : t.Valid) : t.Contains t.hi := contains_iff.mpr ⟨h.toInt_le, le_rfl⟩

/-- A range within a single value has this value only. -/
theorem eq_of_isCon (h : t.Valid) (hsub : t.Subset u) (hcon : u.isCon = true) :
    t.lo = u.lo ∧ t.hi = u.lo :=
  ⟨(hsub.contains h.contains_lo).eq_of_isCon hcon, (hsub.contains h.contains_hi).eq_of_isCon hcon⟩

theorem isCon_of_subset (h : t.Valid) (hsub : t.Subset u) (hcon : u.isCon = true) :
    t.isCon = true := by
  obtain ⟨hlo, hhi⟩ := h.eq_of_isCon hsub hcon
  exact isCon_iff.mpr (hlo.trans hhi.symm)

/-- Only the constant itself is as high as a constant. -/
theorem higherEqual_con_iff (h : t.Valid) {c : BitVec w} :
    t.higherEqual (con c) = true ↔ t = con c := by
  constructor
  · intro hhigher
    have hlo := eq_of_higherEqual h.contains_lo hhigher
    have hhi := eq_of_higherEqual h.contains_hi hhigher
    have hmeet : t.meet (con c) = con c := by simpa [higherEqual] using hhigher
    have hwiden : max t.widen 0 = 0 := congrArg TypeInteger.widen hmeet
    cases t
    simp_all [con, widenMin]
  · rintro rfl
    simp [higherEqual, meet, con, BitVec.slt]

end Valid

namespace Within

variable {c : BitVec w}

/-- Nothing else is within a constant. -/
theorem eq_con (h : t.Within (con c)) (hvalid : t.Valid) : t = con c := by
  obtain ⟨hlo, hhi⟩ := hvalid.eq_of_isCon h.subset (by simp [isCon, con])
  have hwiden : t.widen ≤ 0 := h.widen_le (.inl (by simp [con]))
  cases t
  simp_all [con, widenMin]

/-- Nothing else contains all numbers. -/
theorem eq_full (hw : 0 < w) (h : (full w).Within u) (hvalid : u.Valid) : u = full w := by
  have hmin := BitVec.toInt_intMin_of_pos hw
  have hmax := BitVec.toInt_intMax (w := w)
  have hlo := BitVec.le_toInt u.lo
  have hhi := BitVec.toInt_lt (x := u.hi)
  have hsub := subset_iff.mp h.subset
  rw [full_lo, full_hi] at hsub
  have hulo : u.lo = BitVec.intMin w := BitVec.eq_of_toInt_eq (by omega)
  have huhi : u.hi = BitVec.intMax w := BitVec.eq_of_toInt_eq (by omega)
  have hwiden := h.widen_le (.inr (by rw [hulo, huhi, intMax_sub_intMin]; exact BitVec.le_refl _))
  have huwiden := hvalid.widen_le
  rw [full_eq hw] at hwiden ⊢
  cases u
  simp_all
  omega

end Within

/-- The ranges within a boolean. -/
theorem Within.cases_bool {t : TypeInt} (h : t.Within bool) (hvalid : t.Valid) :
    t = zero 32 ∨ t = one 32 ∨ t = bool := by
  have hlo := contains_bool.mp (h.subset.contains hvalid.contains_lo)
  have hhi := contains_bool.mp (h.subset.contains hvalid.contains_hi)
  have hwiden : t.widen = 0 := Nat.le_zero.mp (h.widen_le (.inl (by decide)))
  have hle := hvalid.le
  obtain ⟨lo, hi, widen⟩ := t
  dsimp only at hlo hhi hwiden hle
  subst hwiden
  rcases hlo with rfl | rfl <;> rcases hhi with rfl | rfl <;> revert hle <;> decide

theorem widen_le_of_higherEqual (h : t.higherEqual u = true) : t.widen ≤ u.widen := by
  have hmeet : t.meet u = u := by simpa [higherEqual] using h
  have hwiden : max t.widen u.widen = u.widen := congrArg TypeInteger.widen hmeet
  omega

/-- The order of the lattice, in which `PhaseCCP` moves the types. -/
theorem within_of_higherEqual (h : t.higherEqual u = true) : t.Within u := by
  have hmeet : t.meet u = u := by simpa [higherEqual] using h
  have hlo : min t.lo.toInt u.lo.toInt = u.lo.toInt := by
    rw [← toInt_ite_slt]
    exact congrArg (fun v => v.lo.toInt) hmeet
  have hhi : max u.hi.toInt t.hi.toInt = u.hi.toInt := by
    rw [← toInt_ite_slt_swap]
    exact congrArg (fun v => v.hi.toInt) hmeet
  exact ⟨subset_iff.mpr (by omega), fun _ => widen_le_of_higherEqual h⟩

namespace Made

/-- The widen count of a range that is small and not full. -/
theorem widen_of_small (h : t.Made) (hsmall : (t.hi - t.lo).toNat ≤ smallint)
    (hfull : ¬ BitVec.allOnes w ≤ t.hi - t.lo) : t.widen = widenMin := by
  have hwiden := congrArg TypeInteger.widen h.normal
  rw [make, if_pos h.valid.le] at hwiden
  simp only [if_pos hsmall, if_neg hfull] at hwiden
  exact hwiden.symm

/-- The widen count of a full range. -/
theorem widen_of_full (h : t.Made) (hfull : BitVec.allOnes w ≤ t.hi - t.lo) :
    t.widen = widenMax := by
  have hwiden := congrArg TypeInteger.widen h.normal
  rw [make, if_pos h.valid.le] at hwiden
  simp only [if_pos hfull] at hwiden
  exact hwiden.symm

/-- Among the types that `make` builds, the order is containment. -/
theorem within (h : t.Made) (hu : u.Made) (hsub : t.Subset u) : t.Within u := by
  refine ⟨hsub, fun hfixed => ?_⟩
  by_cases hfull : BitVec.allOnes w ≤ u.hi - u.lo
  · rw [hu.widen_of_full hfull]
    exact h.valid.widen_le
  · have hsmall := hfixed.resolve_right hfull
    -- A range within a small one is small.
    have hspan : (t.hi - t.lo).toNat ≤ (u.hi - u.lo).toNat := by
      have ht := toNat_hi_sub_lo h.valid.le
      have hu := toNat_hi_sub_lo hu.valid.le
      rw [subset_iff] at hsub
      omega
    rw [h.widen_of_small (hspan.trans hsmall) ?_]
    · exact Nat.zero_le _
    · intro hall
      apply hfull
      rw [BitVec.le_def] at hall ⊢
      exact hall.trans hspan

end Made

end TypeInteger

end HotSpot.Opto
