import Mathlib.Algebra.Order.Ring.Int
import Mathlib.Data.Nat.ModEq
import Mathlib.Tactic.Linarith
import Mathlib.Tactic.Ring

/-! # Division by multiplication

A multiplier that is slightly larger than `power / divisor` replaces a division
by `divisor`, for all dividends of a symmetric range, when its excess is small
against the largest dividend that leaves the largest remainder.
-/

namespace HotSpot

/-- `magic` divides by `divisor` the integers from `-half` up to `half - 1`. -/
structure MagicMultiplier (half divisor power excess magic : Nat) : Prop where
  divisor_pos : 0 < divisor
  divisor_le : divisor ≤ half
  excess_pos : 0 < excess
  excess_le : excess ≤ divisor
  magic_mul : magic * divisor = power + excess
  half_dvd : half ∣ power
  bound : (half - 1 - half % divisor) * excess < power

namespace MagicMultiplier

variable {half divisor power excess magic : Nat}

/-- The largest multiple of the divisor in the range, less one. -/
theorem critical_add_one (h : MagicMultiplier half divisor power excess magic) :
    half - 1 - half % divisor + 1 = divisor * (half / divisor) := by
  have hmod := Nat.div_add_mod half divisor
  have hle : divisor ≤ divisor * (half / divisor) :=
    Nat.le_mul_of_pos_right _ (Nat.div_pos h.divisor_le h.divisor_pos)
  have := h.divisor_pos
  omega

/-- Past the last multiple of the divisor the quotient does not change any more. -/
theorem div_eq_of_le {x : Nat} (hpos : 0 < divisor) (hx : x ≤ half)
    (hge : divisor * (half / divisor) ≤ x) : x / divisor = half / divisor := by
  apply Nat.le_antisymm (Nat.div_le_div_right hx)
  rwa [Nat.le_div_iff_mul_le hpos, Nat.mul_comm]

/-- Dividends that do not reach the last multiple of the divisor plus the largest
remainder leave room for the excess. -/
theorem excess_mul_lt (h : MagicMultiplier half divisor power excess magic) {x : Nat}
    (hx : x ≤ half) (hrem : x < divisor * (half / divisor) ∨ x % divisor + 1 < divisor) :
    excess * x < power * (divisor - x % divisor) := by
  have hcritical := h.critical_add_one
  have hbound := h.bound
  have hpos := h.divisor_pos
  have hmod := Nat.mod_lt x hpos
  have hle : divisor ≤ divisor * (half / divisor) :=
    Nat.le_mul_of_pos_right _ (Nat.div_pos h.divisor_le hpos)
  set critical := half - 1 - half % divisor with hdef
  by_cases hsmall : x < divisor * (half / divisor)
  · calc excess * x ≤ excess * critical := Nat.mul_le_mul_left _ (by omega)
      _ < power := by rw [Nat.mul_comm]; exact hbound
      _ = power * 1 := (Nat.mul_one _).symm
      _ ≤ power * (divisor - x % divisor) := Nat.mul_le_mul_left _ (by omega)
  · have hroom := hrem.resolve_left hsmall
    have hquot := div_eq_of_le hpos hx (by omega)
    have hsplit : x = critical + (x % divisor + 1) := by
      have := Nat.div_add_mod x divisor
      rw [hquot] at this
      omega
    have hfirst : excess * critical < power := by rw [Nat.mul_comm]; exact hbound
    have hsecond : excess * (x % divisor + 1) ≤ power := by
      calc excess * (x % divisor + 1) ≤ excess * critical := Nat.mul_le_mul_left _ (by omega)
        _ ≤ power := hfirst.le
    calc excess * x = excess * critical + excess * (x % divisor + 1) := by
          rw [← Nat.mul_add, ← hsplit]
      _ < power + power := by omega
      _ = power * 2 := (Nat.mul_two _).symm
      _ ≤ power * (divisor - x % divisor) := Nat.mul_le_mul_left _ (by omega)

/-- At the end of the range with the largest remainder, the excess is the residue of
a smaller power. -/
theorem excess_mul_half (h : MagicMultiplier half divisor power excess magic)
    (hrem : half % divisor + 1 = divisor) : excess * half ≤ power := by
  obtain ⟨k, hk⟩ := h.half_dvd
  have hmul := h.magic_mul
  have hhalf : divisor ∣ half + 1 := by
    have hmod := Nat.div_add_mod half divisor
    refine ⟨half / divisor + 1, ?_⟩
    rw [Nat.mul_add]
    omega
  have hkpos : 0 < k := by
    rcases Nat.eq_zero_or_pos k with rfl | hpos
    · have := h.bound
      omega
    · exact hpos
  have hexcess : excess ≤ k := by
    by_contra hlt
    -- `excess - k` is a multiple of the divisor below the divisor.
    have hsub : divisor ∣ excess - k := by
      have hsum : divisor ∣ half * k + excess := by
        rw [← hk, ← hmul]
        exact Nat.dvd_mul_left _ _
      have hfull : divisor ∣ half * k + k := by
        have := Nat.dvd_mul_right_of_dvd hhalf k
        rwa [Nat.add_mul, Nat.one_mul] at this
      have hdiff := Nat.dvd_sub hsum hfull
      rwa [Nat.add_sub_add_left] at hdiff
    have := Nat.le_of_dvd (by omega) hsub
    have := h.excess_le
    omega
  calc excess * half ≤ k * half := Nat.mul_le_mul_right _ hexcess
    _ = power := by rw [hk, Nat.mul_comm]

theorem mul_mul_divisor (h : MagicMultiplier half divisor power excess magic) (x : Nat) :
    magic * x * divisor = (x / divisor * divisor + x % divisor) * power + excess * x := by
  calc magic * x * divisor = magic * divisor * x := by ring
    _ = x * power + excess * x := by rw [h.magic_mul]; ring
    _ = _ := by rw [Nat.mul_comm (x / divisor), Nat.div_add_mod]

theorem nat_div (h : MagicMultiplier half divisor power excess magic) {x : Nat} (hx : x < half) :
    magic * x / power = x / divisor := by
  have hpos := h.divisor_pos
  have hmul := h.mul_mul_divisor x
  have hmod := Nat.mod_lt x hpos
  have hroom : excess * x < power * (divisor - x % divisor) := by
    apply h.excess_mul_lt hx.le
    by_contra hneg
    rw [not_or] at hneg
    have hquot := div_eq_of_le hpos hx.le (by omega)
    have h1 := Nat.div_add_mod x divisor
    have h2 := Nat.div_add_mod half divisor
    have h3 := Nat.mod_lt half hpos
    rw [hquot] at h1
    omega
  rw [Nat.mul_comm power, Nat.sub_mul] at hroom
  have hremle : x % divisor * power ≤ divisor * power := Nat.mul_le_mul_right _ hmod.le
  apply Nat.div_eq_of_lt_le
  · apply Nat.le_of_mul_le_mul_right _ hpos
    rw [hmul]
    calc x / divisor * power * divisor = x / divisor * divisor * power := by ring
      _ ≤ (x / divisor * divisor + x % divisor) * power + excess * x := by
        rw [Nat.add_mul, Nat.add_assoc]
        exact Nat.le_add_right _ _
  · apply Nat.lt_of_mul_lt_mul_right (a := divisor)
    rw [hmul]
    calc (x / divisor * divisor + x % divisor) * power + excess * x
        < x / divisor * divisor * power + divisor * power := by rw [Nat.add_mul]; omega
      _ = (x / divisor + 1) * power * divisor := by ring

/-- The product with a dividend below zero, of absolute value `y`, lies in the step
above the quotient. -/
theorem nat_div_neg (h : MagicMultiplier half divisor power excess magic) {y : Nat} (hy : 0 < y)
    (hle : y ≤ half) :
    y / divisor * power < magic * y ∧ magic * y ≤ (y / divisor + 1) * power := by
  have hpos := h.divisor_pos
  have hmul := h.mul_mul_divisor y
  have hmod := Nat.mod_lt y hpos
  have hroom : excess * y ≤ power * (divisor - y % divisor) := by
    by_cases hrem : y < divisor * (half / divisor) ∨ y % divisor + 1 < divisor
    · exact (h.excess_mul_lt hle hrem).le
    · rw [not_or] at hrem
      have hquot := div_eq_of_le hpos hle (by omega)
      have h1 := Nat.div_add_mod y divisor
      have h2 := Nat.div_add_mod half divisor
      have h3 := Nat.mod_lt half hpos
      rw [hquot] at h1
      obtain rfl : y = half := by omega
      rw [show divisor - y % divisor = 1 by omega, Nat.mul_one]
      exact h.excess_mul_half (by omega)
  rw [Nat.mul_comm power, Nat.sub_mul] at hroom
  have hremle : y % divisor * power ≤ divisor * power := Nat.mul_le_mul_right _ hmod.le
  have hexcess : 0 < excess * y := Nat.mul_pos h.excess_pos hy
  constructor
  · apply Nat.lt_of_mul_lt_mul_right (a := divisor)
    rw [hmul]
    calc y / divisor * power * divisor = y / divisor * divisor * power := by ring
      _ < (y / divisor * divisor + y % divisor) * power + excess * y := by
        rw [Nat.add_mul]
        omega
  · apply Nat.le_of_mul_le_mul_right _ hpos
    rw [hmul]
    calc (y / divisor * divisor + y % divisor) * power + excess * y
        ≤ y / divisor * divisor * power + divisor * power := by rw [Nat.add_mul]; omega
      _ = (y / divisor + 1) * power * divisor := by ring

/-- The truncated quotient is the rounded-down product, one more below zero. -/
theorem ediv_eq (h : MagicMultiplier half divisor power excess magic) {x : Int}
    (hlo : -(half : Int) ≤ x) (hhi : x < half) :
    x * magic / power + (if x < 0 then 1 else 0) = x.tdiv divisor := by
  have hpower : 0 < power := Nat.lt_of_le_of_lt (Nat.zero_le _) h.bound
  rcases Int.lt_or_le x 0 with hneg | hpos
  · obtain ⟨y, rfl⟩ : ∃ y : Nat, x = -y := ⟨x.natAbs, by omega⟩
    obtain ⟨hlt, hle⟩ := h.nat_div_neg (y := y) (by omega) (by omega)
    rw [if_pos hneg, Int.neg_tdiv, ← Int.ofNat_tdiv]
    have hfloor : -(y : Int) * magic / power = -((y / divisor : Nat) : Int) - 1 := by
      apply (Int.ediv_eq_iff_of_pos (by exact_mod_cast hpower)).mpr
      have hlt' : ((y / divisor : Nat) : Int) * power < magic * y := by exact_mod_cast hlt
      have hle' : (magic : Int) * y ≤ ((y / divisor : Nat) + 1) * power := by exact_mod_cast hle
      constructor <;> linarith
    rw [hfloor]
    omega
  · obtain ⟨y, rfl⟩ := Int.eq_ofNat_of_zero_le hpos
    have hdiv := h.nat_div (x := y) (by omega)
    rw [if_neg (by omega), Int.add_zero, ← Int.ofNat_tdiv, ← hdiv, Nat.mul_comm]
    rfl

end MagicMultiplier

end HotSpot
