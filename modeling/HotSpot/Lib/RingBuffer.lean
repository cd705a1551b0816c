import Mathlib.Data.Nat.ModEq

/-! # Ring buffers

A list held by an array of `N` elements from an index on, around the end.
-/

namespace HotSpot.RingBuffer

variable {E : Type*} {N : Nat}

/-- The elements from `top` on are those of the list. -/
def Holds (N : Nat) (elems : Nat → E) (top : Nat) (l : List E) : Prop :=
  ∀ i (h : i < l.length), elems ((top + i) % N) = l[i]

namespace Holds

variable {elems : Nat → E} {top : Nat} {l : List E} {t : E}

theorem nil (elems : Nat → E) (top : Nat) : Holds N elems top [] :=
  fun _ h => absurd h (Nat.not_lt_zero _)

theorem head (h : Holds N elems top (t :: l)) : elems (top % N) = t :=
  h 0 (Nat.zero_lt_succ _)

/-- Removing the first element. -/
theorem tail (h : Holds N elems top (t :: l)) : Holds N elems ((top + 1) % N) l := by
  intro i hi
  have hnext := h (i + 1) (Nat.succ_lt_succ hi)
  rw [Nat.mod_add_mod, show top + 1 + i = top + (i + 1) by omega]
  exact hnext

/-- Adding an element at the end. -/
theorem append (h : Holds N elems top l) (ht : elems ((top + l.length) % N) = t) :
    Holds N elems top (l ++ [t]) := by
  intro i hi
  rw [List.length_append, List.length_singleton] at hi
  by_cases hlt : i < l.length
  · rw [List.getElem_append_left hlt]
    exact h i hlt
  · obtain rfl : i = l.length := by omega
    rw [List.getElem_append_right (Nat.le_refl _)]
    simpa using ht

/-- Removing the last element. -/
theorem dropLast (h : Holds N elems top (l ++ [t])) :
    Holds N elems top l ∧ elems ((top + l.length) % N) = t := by
  constructor
  · intro i hi
    rw [h i (by rw [List.length_append]; omega), List.getElem_append_left hi]
  · rw [h l.length (by simp), List.getElem_append_right (Nat.le_refl _)]
    simp

/-- Writing the first free element. -/
theorem update (h : Holds N elems top l) (hlen : l.length < N) :
    Holds N (Function.update elems ((top + l.length) % N) t) top l := by
  intro i hi
  rw [Function.update_of_ne, h i hi]
  intro heq
  have hmod : i ≡ l.length [MOD N] := Nat.ModEq.add_left_cancel' top heq
  rw [Nat.ModEq, Nat.mod_eq_of_lt (by omega), Nat.mod_eq_of_lt hlen] at hmod
  omega

theorem eq_map (h : Holds N elems top l) :
    (List.range l.length).map (fun i => elems ((top + i) % N)) = l := by
  apply List.ext_getElem
  · simp
  · intro i _ hi
    simpa using h i hi

end Holds

end HotSpot.RingBuffer
