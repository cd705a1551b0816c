import Mathlib.Algebra.Order.Ring.Int
import Mathlib.Tactic.Linarith
import Mathlib.Tactic.Ring

/-! # Words as signed numbers

Shifts, quotients and remainders of words in terms of the integers they stand for.
-/

namespace HotSpot

variable {w : Nat}

theorem two_pow_pred (hw : 0 < w) : (2 : Int) ^ w = 2 * 2 ^ (w - 1) := by
  rw [← Int.pow_succ']
  congr 1
  omega

theorem toInt_eq_toNat_of_nonneg {x : BitVec w} (hx : 0 ≤ x.toInt) : x.toInt = x.toNat := by
  rw [BitVec.toInt_eq_toNat_cond] at hx ⊢
  have := x.isLt
  split at hx <;> omega

theorem toNat_signExtend_of_nonneg {v : Nat} (hle : w ≤ v) {x : BitVec w} (hx : 0 ≤ x.toInt) :
    (x.signExtend v).toNat = x.toNat := by
  have hsame := BitVec.toInt_signExtend_of_le (x := x) hle
  have h1 := toInt_eq_toNat_of_nonneg hx
  have h2 := toInt_eq_toNat_of_nonneg (show 0 ≤ (x.signExtend v).toInt by omega)
  omega

/-- Cutting a word off keeps the number modulo the smaller size. -/
theorem setWidth_ofInt {v : Nat} (hle : v ≤ w) (n : Int) :
    (BitVec.ofInt w n).setWidth v = BitVec.ofInt v n := by
  apply BitVec.eq_of_toNat_eq
  rw [BitVec.toNat_setWidth, BitVec.toNat_ofInt, BitVec.toNat_ofInt]
  have hdvd : ((2 ^ v : Nat) : Int) ∣ ((2 ^ w : Nat) : Int) := by
    exact_mod_cast Nat.pow_dvd_pow 2 hle
  have hpos : 0 ≤ n % ((2 ^ w : Nat) : Int) := Int.emod_nonneg _ (by positivity)
  rw [← Int.emod_emod_of_dvd n hdvd, Int.toNat_emod hpos (by positivity), Int.toNat_natCast]

theorem sshiftRight_eq_ofInt (x : BitVec w) (n : Nat) :
    x.sshiftRight n = BitVec.ofInt w (x.toInt / 2 ^ n) := by
  have h := BitVec.toInt_sshiftRight (x := x) (n := n)
  rw [Int.shiftRight_eq_div_pow] at h
  rw [← BitVec.ofInt_toInt (x := x.sshiftRight n), h]
  congr 1

theorem sdiv_eq_ofInt (x y : BitVec w) :
    x.sdiv y = BitVec.ofInt w (x.toInt.tdiv y.toInt) := by
  apply BitVec.eq_of_toInt_eq
  rw [BitVec.toInt_sdiv, BitVec.toInt_ofInt]

theorem srem_eq_ofInt (x y : BitVec w) :
    x.srem y = BitVec.ofInt w (x.toInt.tmod y.toInt) := by
  rw [← BitVec.toInt_srem, BitVec.ofInt_toInt]

/-- Shifting in the sign leaves nothing else. -/
theorem sshiftRight_pred (x : BitVec w) :
    x.sshiftRight (w - 1) = BitVec.ofInt w (if x.toInt < 0 then -1 else 0) := by
  rw [sshiftRight_eq_ofInt]
  congr 1
  have hlo := BitVec.le_toInt x
  have hhi := BitVec.toInt_lt (x := x)
  have hpos : (0 : Int) < 2 ^ (w - 1) := by positivity
  split
  next hneg => exact (Int.ediv_eq_iff_of_pos hpos).mpr ⟨by omega, by omega⟩
  next hnonneg => exact Int.ediv_eq_zero_of_lt (by omega) hhi

/-- Dividing a negative number by a power of two rounds the other way than a shift. -/
theorem tdiv_two_pow_of_neg {a : Int} (ha : a < 0) (l : Nat) :
    a.tdiv (2 ^ l) = (a + (2 ^ l - 1)) / 2 ^ l := by
  have hpos : (0 : Int) < 2 ^ l := by positivity
  have hdiv := Int.tmod_add_mul_tdiv a (2 ^ l)
  have hlo := Int.lt_tmod_of_pos a hpos
  have hhi : a.tmod (2 ^ l) ≤ 0 := by
    have hneg := Int.tmod_nonneg (2 ^ l) (show 0 ≤ -a by omega)
    rw [Int.neg_tmod] at hneg
    omega
  symm
  apply (Int.ediv_eq_iff_of_pos hpos).mpr
  rw [Int.mul_comm] at hdiv
  constructor <;> linarith

/-- The sign shifted down to the low bits rounds a shift towards zero. -/
theorem sshiftRight_add_sign {l : Nat} (hl : 0 < l) (hlt : l < w) (x : BitVec w) :
    (x + x.sshiftRight (w - 1) >>> (w - l)).sshiftRight l =
      BitVec.ofInt w (x.toInt.tdiv (2 ^ l)) := by
  have hlo := BitVec.le_toInt x
  have hhi := BitVec.toInt_lt (x := x)
  have hsize : (2 : Int) ^ l ≤ 2 ^ (w - 1) := by
    exact_mod_cast Nat.pow_le_pow_right (by decide) (by omega : l ≤ w - 1)
  have hpos : (0 : Int) < 2 ^ l := by positivity
  rw [sshiftRight_eq_ofInt, sshiftRight_pred]
  split
  next hneg =>
    have hround : BitVec.ofInt w (-1) >>> (w - l) = BitVec.ofInt w (2 ^ l - 1) := by
      have hones : BitVec.ofInt w (-1) = BitVec.allOnes w := by
        rw [← BitVec.neg_one_eq_allOnes, BitVec.ofInt_neg]
        rfl
      apply BitVec.eq_of_toNat_eq
      have hsplit : 2 ^ w = 2 ^ l * 2 ^ (w - l) := by
        rw [← Nat.pow_add]
        congr 1
        omega
      have hone : 1 ≤ 2 ^ l := Nat.one_le_two_pow
      have hlow := Nat.two_pow_pos (w - l)
      have hcast : (2 : Int) ^ l - 1 = ((2 ^ l - 1 : Nat) : Int) := by push_cast [hone]; rfl
      rw [hones, BitVec.toNat_ushiftRight, BitVec.toNat_allOnes, hcast, BitVec.ofInt_natCast,
        BitVec.toNat_ofNat, Nat.shiftRight_eq_div_pow]
      have hfit : 2 ^ l - 1 < 2 ^ w := by
        have := Nat.pow_lt_pow_right (by decide : 1 < 2) hlt
        omega
      rw [Nat.mod_eq_of_lt hfit]
      apply Nat.div_eq_of_lt_le
      · rw [Nat.sub_mul, ← hsplit, Nat.one_mul]
        omega
      · rw [Nat.sub_add_cancel hone, ← hsplit]
        have := Nat.two_pow_pos w
        omega
    have hsum : (x + BitVec.ofInt w (2 ^ l - 1)).toInt = x.toInt + (2 ^ l - 1) := by
      nth_rewrite 1 [← BitVec.ofInt_toInt (x := x)]
      rw [← BitVec.ofInt_add, BitVec.toInt_ofInt_eq_self (by omega) (by omega) (by omega)]
    rw [hround, hsum, tdiv_two_pow_of_neg hneg]
  next hnonneg =>
    have hzero : BitVec.ofInt w 0 >>> (w - l) = 0#w := by simp
    rw [hzero, BitVec.add_zero, Int.tdiv_eq_ediv_of_nonneg (by omega)]

/-! ## Masks -/

theorem toInt_emod_two_pow {k : Nat} (hk : k ≤ w) (x : BitVec w) :
    x.toInt % 2 ^ k = ((x.toNat % 2 ^ k : Nat) : Int) := by
  have hdvd : (2 ^ k : Int) ∣ ((2 ^ w : Nat) : Int) := by exact_mod_cast Nat.pow_dvd_pow 2 hk
  rw [BitVec.toInt_eq_toNat_cond]
  push_cast at hdvd ⊢
  split
  · rfl
  · exact (Int.emod_emod_of_dvd _ (dvd_refl _)).symm.trans
      (by rw [Int.emod_emod, Int.sub_emod, Int.emod_eq_zero_of_dvd hdvd]; simp)

/-- A mask of the low bits is a remainder. -/
theorem and_mask_eq_ofInt {k : Nat} (hk : k ≤ w) {mask : BitVec w} (hmask : mask.toNat = 2 ^ k - 1)
    (x : BitVec w) : x &&& mask = BitVec.ofInt w (x.toInt % 2 ^ k) := by
  apply BitVec.eq_of_toNat_eq
  have hlt : x.toNat % 2 ^ k < 2 ^ w := Nat.lt_of_le_of_lt (Nat.mod_le _ _) x.isLt
  rw [toInt_emod_two_pow hk, BitVec.ofInt_natCast, BitVec.toNat_ofNat, Nat.mod_eq_of_lt hlt,
    BitVec.toNat_and, hmask, Nat.and_two_pow_sub_one_eq_mod]

theorem ofInt_ushiftRight {n : Int} (hlo : 0 ≤ n) (hhi : n < 2 ^ w) (k : Nat) :
    BitVec.ofInt w n >>> k = BitVec.ofInt w (n / 2 ^ k) := by
  obtain ⟨n, rfl⟩ := Int.eq_ofNat_of_zero_le hlo
  have hlt : n < 2 ^ w := by exact_mod_cast hhi
  have hquot : (n : Int) / 2 ^ k = ((n / 2 ^ k : Nat) : Int) := by push_cast; rfl
  apply BitVec.eq_of_toNat_eq
  rw [hquot, BitVec.ofInt_natCast, BitVec.ofInt_natCast, BitVec.toNat_ushiftRight,
    BitVec.toNat_ofNat, BitVec.toNat_ofNat, Nat.shiftRight_eq_div_pow, Nat.mod_eq_of_lt hlt,
    Nat.mod_eq_of_lt (Nat.lt_of_le_of_lt (Nat.div_le_self _ _) hlt)]

theorem neg_twoPow (l : Nat) : -BitVec.twoPow w l = BitVec.allOnes w <<< l := by
  rw [BitVec.shiftLeft_eq_mul_twoPow, ← BitVec.neg_one_eq_allOnes, BitVec.neg_mul,
    BitVec.one_mul]

theorem two_pow_dvd_toInt_iff {l : Nat} (hl : l ≤ w) {x : BitVec w} :
    (2 ^ l : Int) ∣ x.toInt ↔ 2 ^ l ∣ x.toNat := by
  have hdvd : (2 ^ l : Int) ∣ ((2 ^ w : Nat) : Int) := by exact_mod_cast Nat.pow_dvd_pow 2 hl
  rw [BitVec.toInt_eq_toNat_cond, ← Int.natCast_dvd_natCast]
  push_cast at hdvd ⊢
  split
  · rfl
  · exact (Int.dvd_iff_dvd_of_dvd_sub (by simpa using hdvd)).symm

/-- A mask that clears at least the low `l` bits leaves a multiple of `2 ^ l`. -/
theorem two_pow_dvd_toInt_and {l j : Nat} (hlj : l ≤ j) (hjw : j < w) (x : BitVec w) :
    (2 ^ l : Int) ∣ (x &&& -BitVec.twoPow w j).toInt := by
  have hshift : x &&& -BitVec.twoPow w j = (x >>> j) <<< j := by
    rw [neg_twoPow]
    ext i hi
    simp only [BitVec.getElem_and, BitVec.getElem_shiftLeft, BitVec.getElem_allOnes]
    by_cases hij : i < j
    · simp [hij]
    · simp [hij, BitVec.getLsbD_eq_getElem hi, Nat.add_sub_cancel' (Nat.le_of_not_lt hij)]
  rw [two_pow_dvd_toInt_iff (by omega), hshift, BitVec.toNat_shiftLeft, Nat.shiftLeft_eq,
    Nat.dvd_mod_iff (Nat.pow_dvd_pow 2 (by omega))]
  exact (Nat.pow_dvd_pow 2 hlj).trans (Nat.dvd_mul_left _ _)

/-- Bits that are shifted out need not be cleared before. -/
theorem sshiftRight_and_mask {l : Nat} (hlw : l < w) (x : BitVec w) :
    (x &&& -BitVec.twoPow w l).sshiftRight l = x.sshiftRight l := by
  have hmsb : (BitVec.allOnes w <<< l).msb = true := by
    rw [BitVec.msb_eq_getLsbD_last, BitVec.getLsbD_shiftLeft, BitVec.getLsbD_allOnes]
    simp
    omega
  rw [neg_twoPow]
  ext i hi
  rw [BitVec.getElem_sshiftRight, BitVec.getElem_sshiftRight, BitVec.msb_and, hmsb, Bool.and_true]
  split
  next hlt => simp [BitVec.getElem_shiftLeft]
  next => rfl

/-! ## Signs -/

theorem toInt_neg_one (hw : 0 < w) : (-1#w).toInt = -1 := by
  rw [BitVec.neg_one_eq_allOnes, BitVec.toInt_allOnes, if_pos hw]

theorem toInt_lt_zero_iff_msb {x : BitVec w} : x.toInt < 0 ↔ x.msb = true := by
  rw [← BitVec.slt_zero_eq_msb, BitVec.slt_iff_toInt_lt, BitVec.toInt_zero]

/-- The smaller of two words. -/
theorem toInt_ite_slt (x y : BitVec w) :
    (if x.slt y then x else y).toInt = min x.toInt y.toInt := by
  simp only [BitVec.slt_iff_toInt_lt]
  split <;> omega

/-- The larger of two words. -/
theorem toInt_ite_slt_swap (x y : BitVec w) :
    (if x.slt y then y else x).toInt = max x.toInt y.toInt := by
  simp only [BitVec.slt_iff_toInt_lt]
  split <;> omega

theorem toInt_and_lt_zero_iff {x y : BitVec w} :
    (x &&& y).toInt < 0 ↔ x.toInt < 0 ∧ y.toInt < 0 := by
  rw [toInt_lt_zero_iff_msb, toInt_lt_zero_iff_msb, toInt_lt_zero_iff_msb, BitVec.msb_and,
    Bool.and_eq_true]

theorem toInt_not_or_lt_zero_iff (hw : 0 < w) {x y : BitVec w} :
    (~~~(x ||| y)).toInt < 0 ↔ 0 ≤ x.toInt ∧ 0 ≤ y.toInt := by
  rw [toInt_lt_zero_iff_msb, BitVec.msb_not, BitVec.msb_or, ← not_lt, ← not_lt,
    toInt_lt_zero_iff_msb, toInt_lt_zero_iff_msb]
  simp [hw]

theorem zero_le_toInt_xor_iff {x y : BitVec w} :
    0 ≤ (x ^^^ y).toInt ↔ (x.toInt < 0 ↔ y.toInt < 0) := by
  rw [← not_lt, toInt_lt_zero_iff_msb, toInt_lt_zero_iff_msb, toInt_lt_zero_iff_msb,
    BitVec.msb_xor]
  cases x.msb <;> cases y.msb <;> decide

/-! ## Sums and differences that may wrap around -/

theorem toInt_ofInt_cases (hw : 0 < w) {n : Int} (hlo : -(2 * 2 ^ (w - 1)) ≤ n)
    (hhi : n < 2 * 2 ^ (w - 1)) :
    (-2 ^ (w - 1) ≤ n ∧ n < 2 ^ (w - 1) ∧ (BitVec.ofInt w n).toInt = n) ∨
    (2 ^ (w - 1) ≤ n ∧ (BitVec.ofInt w n).toInt = n - 2 * 2 ^ (w - 1)) ∨
    (n < -2 ^ (w - 1) ∧ (BitVec.ofInt w n).toInt = n + 2 * 2 ^ (w - 1)) := by
  have hwhole := two_pow_pred hw
  have hshift : ∀ k : Int, BitVec.ofInt w (n + k * 2 ^ w) = BitVec.ofInt w n := by
    intro k
    apply BitVec.eq_of_toNat_eq
    rw [BitVec.toNat_ofInt, BitVec.toNat_ofInt]
    push_cast
    rw [Int.add_mul_emod_self_right]
  rcases Int.lt_or_le n (-2 ^ (w - 1)) with hunder | hle
  · refine .inr (.inr ⟨hunder, ?_⟩)
    rw [← hshift 1, Int.one_mul, hwhole]
    exact BitVec.toInt_ofInt_eq_self hw (by omega) (by omega)
  · rcases Int.lt_or_le n (2 ^ (w - 1)) with hlt | hover
    · exact .inl ⟨hle, hlt, BitVec.toInt_ofInt_eq_self hw hle hlt⟩
    · refine .inr (.inl ⟨hover, ?_⟩)
      rw [← hshift (-1), Int.neg_one_mul, hwhole, ← Int.sub_eq_add_neg]
      exact BitVec.toInt_ofInt_eq_self hw (by omega) (by omega)

/-- A product that fits does not wrap around. -/
theorem toInt_mul_eq_of_bounds (hw : 0 < w) {x y : BitVec w}
    (hlo : -2 ^ (w - 1) ≤ x.toInt * y.toInt) (hhi : x.toInt * y.toInt < 2 ^ (w - 1)) :
    (x * y).toInt = x.toInt * y.toInt := by
  have h := BitVec.toInt_ofInt_eq_self hw hlo hhi
  rwa [BitVec.ofInt_mul, BitVec.ofInt_toInt, BitVec.ofInt_toInt] at h

theorem toInt_add_cases (hw : 0 < w) (x y : BitVec w) :
    (-2 ^ (w - 1) ≤ x.toInt + y.toInt ∧ x.toInt + y.toInt < 2 ^ (w - 1) ∧
      (x + y).toInt = x.toInt + y.toInt) ∨
    (2 ^ (w - 1) ≤ x.toInt + y.toInt ∧ (x + y).toInt = x.toInt + y.toInt - 2 * 2 ^ (w - 1)) ∨
    (x.toInt + y.toInt < -2 ^ (w - 1) ∧ (x + y).toInt = x.toInt + y.toInt + 2 * 2 ^ (w - 1)) := by
  have hx := BitVec.le_toInt x
  have hx' := BitVec.toInt_lt (x := x)
  have hy := BitVec.le_toInt y
  have hy' := BitVec.toInt_lt (x := y)
  have h := toInt_ofInt_cases hw (n := x.toInt + y.toInt) (by omega) (by omega)
  rwa [BitVec.ofInt_add, BitVec.ofInt_toInt, BitVec.ofInt_toInt] at h

theorem toInt_sub_cases (hw : 0 < w) (x y : BitVec w) :
    (-2 ^ (w - 1) ≤ x.toInt - y.toInt ∧ x.toInt - y.toInt < 2 ^ (w - 1) ∧
      (x - y).toInt = x.toInt - y.toInt) ∨
    (2 ^ (w - 1) ≤ x.toInt - y.toInt ∧ (x - y).toInt = x.toInt - y.toInt - 2 * 2 ^ (w - 1)) ∨
    (x.toInt - y.toInt < -2 ^ (w - 1) ∧ (x - y).toInt = x.toInt - y.toInt + 2 * 2 ^ (w - 1)) := by
  have hx := BitVec.le_toInt x
  have hx' := BitVec.toInt_lt (x := x)
  have hy := BitVec.le_toInt y
  have hy' := BitVec.toInt_lt (x := y)
  have h := toInt_ofInt_cases hw (n := x.toInt - y.toInt) (by omega) (by omega)
  have hsub : BitVec.ofInt w (x.toInt - y.toInt) = x - y := by
    rw [Int.sub_eq_add_neg, BitVec.ofInt_add, BitVec.ofInt_neg, BitVec.ofInt_toInt,
      BitVec.ofInt_toInt, ← BitVec.sub_eq_add_neg]
  rwa [hsub] at h

/-! ## Shifts of ranges -/

/-- A left shift that the right shift undoes has not lost any bits. -/
theorem toInt_shiftLeft_of_sshiftRight_eq {k : Nat} (hk : k < w) {x : BitVec w}
    (h : (x <<< k).sshiftRight k = x) : (x <<< k).toInt = x.toInt * 2 ^ k := by
  have hdvd : (2 ^ k : Int) ∣ (x <<< k).toInt := by
    rw [two_pow_dvd_toInt_iff hk.le, BitVec.toNat_shiftLeft, Nat.shiftLeft_eq,
      Nat.dvd_mod_iff (Nat.pow_dvd_pow 2 hk.le)]
    exact Nat.dvd_mul_left _ _
  have hquot : x.toInt = (x <<< k).toInt / 2 ^ k := by
    have hshift := BitVec.toInt_sshiftRight (x := x <<< k) (n := k)
    rw [h, Int.shiftRight_eq_div_pow] at hshift
    rw [hshift]
    congr 1
  rw [hquot, Int.ediv_mul_cancel hdvd]

/-- A left shift that fits multiplies. -/
theorem toInt_shiftLeft_of_bounds {k : Nat} {x : BitVec w} (hw : 0 < w)
    (hlo : -2 ^ (w - 1) ≤ x.toInt * 2 ^ k) (hhi : x.toInt * 2 ^ k < 2 ^ (w - 1)) :
    (x <<< k).toInt = x.toInt * 2 ^ k := by
  have hshift : x <<< k = BitVec.ofInt w (x.toInt * 2 ^ k) := by
    have hpow : BitVec.ofInt w (2 ^ k) = BitVec.twoPow w k := by
      rw [show (2 : Int) ^ k = ((2 ^ k : Nat) : Int) by push_cast; rfl, BitVec.ofInt_natCast]
      apply BitVec.eq_of_toNat_eq
      rw [BitVec.toNat_ofNat, BitVec.toNat_twoPow]
    rw [BitVec.shiftLeft_eq_mul_twoPow, BitVec.ofInt_mul, BitVec.ofInt_toInt, hpow]
  rw [hshift]
  exact BitVec.toInt_ofInt_eq_self hw hlo hhi

theorem toInt_sshiftRight_eq (x : BitVec w) (k : Nat) :
    (x.sshiftRight k).toInt = x.toInt / 2 ^ k := by
  rw [BitVec.toInt_sshiftRight, Int.shiftRight_eq_div_pow]
  congr 1

/-- An unsigned shift clears the sign. -/
theorem toInt_ushiftRight_eq {k : Nat} (hk : 0 < k) (x : BitVec w) :
    (x >>> k).toInt = ((x.toNat / 2 ^ k : Nat) : Int) := by
  have htwo : 2 ≤ 2 ^ k := Nat.pow_le_pow_right (by decide : 0 < 2) hk
  have hlt := x.isLt
  have hle : 2 * (x.toNat / 2 ^ k) ≤ x.toNat :=
    (Nat.mul_le_mul_right _ htwo).trans (Nat.mul_div_le _ _)
  rw [BitVec.toInt_eq_toNat_cond, BitVec.toNat_ushiftRight, Nat.shiftRight_eq_div_pow,
    if_pos (by omega)]

end HotSpot
