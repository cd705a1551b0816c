import Mathlib.Algebra.Order.Ring.Int
import Mathlib.Tactic.Linarith
import Mathlib.Tactic.Ring

/-! # Remainders by folding

Adding the upper digits of a number to its last digit keeps the remainder by the
base less one. After enough rounds one subtraction is left to do.
-/

namespace HotSpot

/-- The upper digits and the last one. -/
def fold (base x : Int) : Int := x / base + x % base

/-- What `fold` makes of an upper bound. -/
def foldUpper (base : Nat) : Nat → Nat → Nat
  | 0, bound => bound
  | rounds + 1, bound => foldUpper base rounds (bound / base + (base - 1))

/-- What `fold` makes of the absolute value of a lower bound. -/
def foldLower (base : Nat) : Nat → Nat → Nat
  | 0, bound => bound
  | rounds + 1, bound => foldLower base rounds ((bound + (base - 1)) / base)

variable {base : Nat}

theorem dvd_sub_fold (base : Nat) (x : Int) : (base - 1 : Int) ∣ x - fold base x := by
  refine ⟨x / base, ?_⟩
  have := Int.mul_ediv_add_emod x base
  unfold fold
  linarith

theorem dvd_sub_iterate_fold (base n : Nat) (x : Int) :
    (base - 1 : Int) ∣ x - (fold base)^[n] x := by
  induction n generalizing x with
  | zero => simp
  | succ n ih =>
    rw [Function.iterate_succ_apply]
    have h := Int.dvd_add (dvd_sub_fold base x) (ih (fold base x))
    rwa [show x - fold base x + (fold base x - (fold base)^[n] (fold base x)) =
      x - (fold base)^[n] (fold base x) by ring] at h

section Bounds

variable (hbase : 0 < base) {x : Int} {bound : Nat}

include hbase

theorem fold_nonneg (hx : 0 ≤ x) : 0 ≤ fold base x :=
  Int.add_nonneg (Int.ediv_nonneg hx (by omega)) (Int.emod_nonneg _ (by omega))

theorem fold_le (hx : x ≤ bound) : fold base x ≤ (bound / base + (base - 1) : Nat) := by
  have hquot : x / base ≤ (bound : Int) / base := Int.ediv_le_ediv (by omega) hx
  have hrem := Int.emod_lt_of_pos x (show (0 : Int) < base by omega)
  unfold fold
  push_cast [Nat.cast_sub (show 1 ≤ base by omega)]
  omega

theorem neg_le_fold (hx : -bound ≤ x) : -((bound + (base - 1)) / base : Nat) ≤ fold base x := by
  have hrem := Int.emod_nonneg x (show (base : Int) ≠ 0 by omega)
  have hquot : -((bound + (base - 1)) / base : Nat) ≤ x / (base : Int) := by
    rw [Int.le_ediv_iff_mul_le (by omega)]
    have hdiv := Nat.div_add_mod (bound + (base - 1)) base
    have hmod := Nat.mod_lt (bound + (base - 1)) hbase
    have hge : bound ≤ base * ((bound + (base - 1)) / base) := by omega
    have hge' : (bound : Int) ≤ base * ((bound + (base - 1)) / base : Nat) := by exact_mod_cast hge
    rw [Int.neg_mul, Int.mul_comm]
    omega
  unfold fold
  omega

theorem fold_le_of_neg (hx : x < 0) : fold base x ≤ base - 2 := by
  have hquot := Int.ediv_neg_of_neg_of_pos hx (show (0 : Int) < base by omega)
  have hrem := Int.emod_lt_of_pos x (show (0 : Int) < base by omega)
  unfold fold
  omega

/-- Numbers below zero stay below the base less one, also after they have become positive. -/
theorem fold_le_of_le (hx : x ≤ base - 2) : fold base x ≤ base - 2 := by
  rcases Int.lt_or_le x 0 with hneg | hpos
  · exact fold_le_of_neg hbase hneg
  · unfold fold
    rw [Int.ediv_eq_zero_of_lt hpos (by omega), Int.emod_eq_of_lt hpos (by omega)]
    omega

theorem iterate_fold_nonneg (n : Nat) (hlo : 0 ≤ x) (hhi : x ≤ bound) :
    0 ≤ (fold base)^[n] x ∧ (fold base)^[n] x ≤ foldUpper base n bound := by
  induction n generalizing x bound with
  | zero => exact ⟨hlo, hhi⟩
  | succ n ih => exact ih (fold_nonneg hbase hlo) (fold_le hbase hhi)

theorem iterate_fold_neg (n : Nat) (hlo : -bound ≤ x) (hhi : x ≤ base - 2) :
    -foldLower base n bound ≤ (fold base)^[n] x ∧ (fold base)^[n] x ≤ base - 2 := by
  induction n generalizing x bound with
  | zero => exact ⟨hlo, hhi⟩
  | succ n ih => exact ih (neg_le_fold hbase hlo) (fold_le_of_le hbase hhi)

end Bounds

/-- The truncated remainder has the sign of the dividend. -/
theorem tmod_eq_of_dvd {c x r : Int} (hdvd : c ∣ x - r)
    (h : 0 ≤ x ∧ 0 ≤ r ∧ r < c ∨ x < 0 ∧ -c < r ∧ r ≤ 0) : x.tmod c = r := by
  rcases h with ⟨hx, hr, hlt⟩ | ⟨hx, hlt, hr⟩
  · rw [Int.tmod_eq_emod_of_nonneg hx, (Int.emod_emod_of_dvd x (dvd_refl c)).symm,
      Int.emod_emod, (Int.emod_eq_emod_iff_emod_sub_eq_zero).mpr (Int.emod_eq_zero_of_dvd hdvd),
      Int.emod_eq_of_lt hr hlt]
  · have hneg : c ∣ -x - -r := by
      rw [show -x - -r = -(x - r) by ring]
      exact Int.dvd_neg.mpr hdvd
    have hmod : (-x).tmod c = -r := by
      rw [Int.tmod_eq_emod_of_nonneg (by omega),
        (Int.emod_eq_emod_iff_emod_sub_eq_zero).mpr (Int.emod_eq_zero_of_dvd hneg),
        Int.emod_eq_of_lt (by omega) (by omega)]
    rw [Int.neg_tmod] at hmod
    omega

/-- One subtraction from the folded number leaves the truncated remainder. -/
theorem tmod_eq_of_fold (hbase : 2 < base) {n bound : Nat} {x : Int} (hlo : -bound ≤ x)
    (hhi : x < bound) (hlower : foldLower base n bound < base - 1)
    (hupper : foldUpper base n (bound - 1) < 2 * (base - 1)) :
    x.tmod (base - 1 : Int) =
      if (if 0 ≤ x then (base - 1 : Int) else 1) ≤ (fold base)^[n] x
        then (fold base)^[n] x - (base - 1) else (fold base)^[n] x := by
  have hdvd := dvd_sub_iterate_fold base n x
  have hdvd' : (base - 1 : Int) ∣ x - ((fold base)^[n] x - (base - 1)) := by
    rw [show x - ((fold base)^[n] x - (base - 1 : Int)) = x - (fold base)^[n] x + (base - 1) by
      ring]
    exact Int.dvd_add hdvd (Int.dvd_refl _)
  rcases Int.lt_or_le x 0 with hneg | hpos
  · have hbounds := iterate_fold_neg (by omega) n hlo (show x ≤ base - 2 by omega)
    rw [if_neg (show ¬ 0 ≤ x by omega)]
    split
    · exact tmod_eq_of_dvd hdvd' (.inr ⟨hneg, by omega, by omega⟩)
    · exact tmod_eq_of_dvd hdvd (.inr ⟨hneg, by omega, by omega⟩)
  · have hbounds := iterate_fold_nonneg (show 0 < base by omega) n hpos
      (show x ≤ (bound - 1 : Nat) by omega)
    rw [if_pos hpos]
    split
    · exact tmod_eq_of_dvd hdvd' (.inl ⟨hpos, by omega, by omega⟩)
    · exact tmod_eq_of_dvd hdvd (.inl ⟨hpos, by omega, by omega⟩)

end HotSpot
