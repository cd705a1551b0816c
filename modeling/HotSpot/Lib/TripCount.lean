import Mathlib.Data.Int.ModEq
import Mathlib.Tactic.Linarith
import Mathlib.Tactic.Ring

/-! # Trip counts in wrapping arithmetic

A loop counts up from `init` by `d` until it reaches a bound. The value it ends
at is computed with numbers that wrap around modulo `size` into the range up to
`hi`. When it comes out right is a question about integers.
-/

namespace HotSpot.TripCount

/-- The numbers that the arithmetic wraps around into. -/
def InRange (size hi x : ℤ) : Prop := hi - size < x ∧ x ≤ hi

theorem InRange.eq_of_modEq {size hi x y : ℤ} (hx : InRange size hi x) (hy : InRange size hi y)
    (heq : x ≡ y [ZMOD size]) : x = y := by
  obtain ⟨hxlo, hxhi⟩ := hx
  obtain ⟨hylo, hyhi⟩ := hy
  obtain ⟨k, hk⟩ := heq.symm.dvd
  have hk0 : k = 0 := by
    have hlt : k < 1 := by nlinarith
    have hgt : -1 < k := by nlinarith
    omega
  subst hk0
  linarith

/-- How often the loop's body is executed in unbounded arithmetic. -/
def trips (init bound d : ℤ) : ℤ := max 1 (-((init - bound) / d))

section Trips

variable {init bound d : ℤ} (hd : 0 < d)

include hd

end Trips

/-- The last value of the loop as it is computed: the bias `bound - init + d - 1`,
its quotient by `d` that rounds towards zero, and that many steps from `init`. -/
structure Computed (size hi init bound d last : ℤ) : Prop where
  range : InRange size hi last
  value : ∃ bias, InRange size hi bias ∧ bias ≡ bound - init + d - 1 [ZMOD size] ∧
    last ≡ init + bias.tdiv d * d [ZMOD size]

/-- The computation does not go wrong: the loop's numbers stay in range, and so
does the bias unless its wrapped value is divided exactly as well. -/
structure Fits (size hi init bound d : ℤ) : Prop where
  boundLe : bound ≤ hi
  lastLe : init + trips init bound d * d ≤ hi
  bias : bound - init + d - 1 ≤ hi ∨ d ∣ size ∧ d ∣ bound - init + d - 1

variable {size hi init bound d last : ℤ}

end HotSpot.TripCount
