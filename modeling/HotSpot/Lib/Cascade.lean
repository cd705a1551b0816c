import Mathlib

/-! # Cascades

Work that is pending at numbered places, where what is done at one place may cause work at the
places behind it only. The places that are pending are read as a binary number, with the first
place as its highest digit. It gets smaller whenever a place is done.
-/

namespace HotSpot

/-- The first `n` places as a number. -/
def pendingWeight (pending : Nat → Bool) : Nat → Nat
  | 0 => 0
  | n + 1 => 2 * pendingWeight pending n + (pending n).toNat

section

variable {pending pending' : Nat → Bool} {n k : Nat}

theorem pendingWeight_lt_two_pow (pending : Nat → Bool) (n : Nat) :
    pendingWeight pending n < 2 ^ n := by
  induction n with
  | zero => exact Nat.one_pos
  | succ n ih =>
    have hdigit := Bool.toNat_le (pending n)
    rw [pendingWeight, Nat.pow_succ]
    omega

theorem pendingWeight_mono (h : ∀ k < n, pending' k = true → pending k = true) :
    pendingWeight pending' n ≤ pendingWeight pending n := by
  induction n with
  | zero => exact Nat.le_refl 0
  | succ n ih =>
    have hrest := ih fun k hk => h k (Nat.lt_succ_of_lt hk)
    have hdigit : (pending' n).toNat ≤ (pending n).toNat := by
      cases hnew : pending' n with
      | false => exact Nat.zero_le _
      | true =>
        exact Nat.le_of_eq (congrArg Bool.toNat (h n (Nat.lt_succ_self n) hnew).symm)
    rw [pendingWeight, pendingWeight]
    omega

/-- A place is done, and nothing new is pending in front of it. -/
theorem pendingWeight_lt (hk : k < n) (hold : pending k = true) (hdone : pending' k = false)
    (hfront : ∀ j < k, pending' j = true → pending j = true) :
    pendingWeight pending' n < pendingWeight pending n := by
  induction n with
  | zero => exact absurd hk (Nat.not_lt_zero k)
  | succ n ih =>
    rw [pendingWeight, pendingWeight]
    rcases Nat.lt_succ_iff_lt_or_eq.mp hk with hlt | rfl
    · have hrest := ih hlt
      have hdigit := Bool.toNat_le (pending' n)
      omega
    · have hrest := pendingWeight_mono hfront
      rw [hold, hdone, Bool.toNat_true, Bool.toNat_false]
      omega

end

end HotSpot
