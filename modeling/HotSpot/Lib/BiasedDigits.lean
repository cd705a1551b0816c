import Mathlib.Data.Nat.Basic
import Mathlib.Tactic.Common

/-! # Biased-digit codes with a bounded number of digits

A number is written as digits in base `H`, least significant first. A digit
below the bias `L` ends the code; any other digit stands for itself and says
that one more follows. After `k` continued digits the next one ends the code
whatever its value, so a code has at most `k + 1` digits.
-/

namespace HotSpot.BiasedDigits

variable (L H : Nat)

/-- The digits of `n`, with at most `k` of them continued. -/
def encode : Nat → Nat → List Nat
  | 0, n => [n]
  | k + 1, n => if n < L then [n] else (L + (n - L) % H) :: encode k ((n - L) / H)

/-- The first number whose code would need a last digit of `L + H` or more. -/
def limit : Nat → Nat
  | 0 => L + H
  | k + 1 => L + H * limit k

theorem encode_ne_nil (k n : Nat) : encode L H k n ≠ [] := by
  cases k with
  | zero => simp [encode]
  | succ k =>
    unfold encode
    split <;> simp

/-- Below the limit every digit of the code, the last one included, is a
digit of the alphabet `[0, L + H)`. -/
theorem encode_lt (hH : 0 < H) (k n : Nat) (hn : n < limit L H k) :
    ∀ digit ∈ encode L H k n, digit < L + H := by
  induction k generalizing n with
  | zero => simpa [encode, limit] using hn
  | succ k ih =>
    unfold encode
    split
    next hlow =>
      intro digit hdigit
      rw [List.mem_singleton] at hdigit
      omega
    next hhigh =>
      have hnext : (n - L) / H < limit L H k := by
        rw [Nat.div_lt_iff_lt_mul hH, Nat.mul_comm]
        simp only [limit] at hn
        omega
      intro digit hdigit
      rcases List.mem_cons.mp hdigit with rfl | htail
      · have := Nat.mod_lt (n - L) hH
        omega
      · exact ih _ hnext digit htail

end HotSpot.BiasedDigits
