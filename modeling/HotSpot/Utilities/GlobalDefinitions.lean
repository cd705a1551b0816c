import Mathlib

/-! # Powers of two

`is_power_of_2` and `log2_intptr` of `globalDefinitions.hpp` with their versions
for longs, which agree with them where a pointer has 64 bits. Ints are extended
to that size with their sign.
-/

namespace HotSpot

def isPowerOf2 (x : BitVec 64) : Bool := x ≠ 0 && (x &&& (x - 1)) = 0

/-- The loop, which multiplies `p` until it exceeds `x` or overflows. -/
def log2Loop (x : BitVec 64) : Nat → Int → BitVec 64 → Int
  | 0, i, _ => i
  | fuel + 1, i, p => if p ≠ 0 ∧ p ≤ x then log2Loop x fuel (i + 1) (p * 2) else i

/-- The largest `i` such that `2 ^ i ≤ x`; 63 if `x` is negative. -/
def log2Intptr (x : BitVec 64) : Int := log2Loop x 64 (-1) 1

theorem isPowerOf2_iff {x : BitVec 64} : isPowerOf2 x = true ↔ x.toNat.isPowerOfTwo := by
  rw [← Nat.ne_zero_and_sub_one_eq_zero_iff_isPowerOfTwo]
  simp only [isPowerOf2, Bool.and_eq_true, decide_eq_true_eq, ← BitVec.toNat_inj, ne_eq,
    BitVec.toNat_and, show (0 : BitVec 64).toNat = 0 from rfl]
  apply and_congr_right
  intro hne
  have hle : (1 : BitVec 64) ≤ x := by
    rw [BitVec.le_def]
    change 1 ≤ x.toNat
    omega
  rw [BitVec.toNat_sub_of_le hle]
  rfl

/-- Before round `k` of the loop `p` is `2 ^ k`. -/
theorem log2Loop_eq (x : BitVec 64) {fuel k : Nat} (hfuel : fuel + k = 64)
    (hx : 2 ^ k ≤ 2 * x.toNat ∨ k = 0) :
    log2Loop x fuel (k - 1) (BitVec.twoPow 64 k) =
      if x.toNat < 1 then -1 else (x.toNat.log2 : Int) := by
  induction fuel generalizing k with
  | zero =>
    obtain rfl : k = 64 := by omega
    have hlt := x.isLt
    have hlog : x.toNat.log2 = 63 := by
      rw [Nat.log2_eq_iff (by omega)]
      omega
    rw [log2Loop, if_neg (by omega), hlog]
    rfl
  | succ fuel ih =>
    have htoNat : (BitVec.twoPow 64 k).toNat = 2 ^ k := by
      rw [BitVec.toNat_twoPow, Nat.mod_eq_of_lt (Nat.pow_lt_pow_right (by decide) (by omega))]
    have hpos := Nat.two_pow_pos k
    have hne : BitVec.twoPow 64 k ≠ 0 := by
      rw [ne_eq, ← BitVec.toNat_inj, htoNat]
      exact Nat.ne_of_gt hpos
    rw [log2Loop]
    simp only [hne, ne_eq, not_false_eq_true, true_and, BitVec.le_def, htoNat]
    split
    next hle =>
      have hnext : BitVec.twoPow 64 k * 2 = BitVec.twoPow 64 (k + 1) := by
        rw [BitVec.twoPow_eq, BitVec.twoPow_eq, BitVec.shiftLeft_add]
        bv_omega
      rw [hnext]
      have := ih (k := k + 1) (by omega) (.inl (by rw [Nat.pow_succ]; omega))
      rw [← this]
      congr 1
      omega
    next hgt =>
      rcases hx with hx | rfl
      · rw [if_neg (by omega)]
        have hlog : x.toNat.log2 = k - 1 := by
          rw [Nat.log2_eq_iff (by omega)]
          rcases k with _ | k
          · simp at hx hgt
            omega
          · rw [Nat.pow_succ] at hx hgt
            simp only [Nat.add_sub_cancel, Nat.pow_succ]
            omega
        have hk : 0 < k := by
          rcases k with _ | k
          · simp at hx hgt
            omega
          · omega
        rw [hlog]
        omega
      · rw [Nat.pow_zero] at hgt
        rw [if_pos (by omega)]
        rfl

theorem log2Intptr_eq {x : BitVec 64} (hx : x ≠ 0) : log2Intptr x = x.toNat.log2 := by
  have hpos : ¬ x.toNat < 1 := by
    intro hlt
    apply hx
    apply BitVec.eq_of_toNat_eq
    change x.toNat = 0
    omega
  have h := log2Loop_eq x (show 64 + 0 = 64 from rfl) (.inr rfl)
  rw [if_neg hpos] at h
  exact h

theorem log2Intptr_of_toNat_eq {x : BitVec 64} {k : Nat} (hx : x.toNat = 2 ^ k) :
    log2Intptr x = k := by
  have hne : x ≠ 0 := by
    rintro rfl
    have := Nat.two_pow_pos k
    change 0 = 2 ^ k at hx
    omega
  rw [log2Intptr_eq hne, hx, Nat.log2_two_pow]

end HotSpot
