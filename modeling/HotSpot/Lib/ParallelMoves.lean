import Mathlib.Logic.Function.Basic
import Mathlib.Data.List.Nodup

/-! # Simultaneous assignments

A store gives every cell a value. An assignment writes the words of a value to a list of
cells at once, after all of them have been read.
-/

namespace HotSpot

section Assign

variable {C V : Type} [DecidableEq C]

def assign (σ : C → V) : List C → List V → C → V
  | c :: cells, v :: words => Function.update (assign σ cells words) c v
  | _, _ => σ

variable {σ : C → V} {cells read : List C} {words : List V}

theorem assign_of_not_mem {c : C} (h : c ∉ cells) : assign σ cells words c = σ c := by
  fun_induction assign σ cells words with
  | case1 d cells v words ih =>
    rw [List.mem_cons, not_or] at h
    rw [Function.update_of_ne h.1, ih h.2]
  | case2 => rfl

/-- What is read elsewhere stays. -/
theorem map_assign_of_disjoint (h : ∀ c ∈ read, c ∉ cells) :
    read.map (assign σ cells words) = read.map σ :=
  List.map_congr_left fun c hc => assign_of_not_mem (h c hc)

/-- The cells hold what was written. -/
theorem map_assign_self (hnodup : cells.Nodup) (hlength : cells.length = words.length) :
    cells.map (assign σ cells words) = words := by
  induction cells generalizing words with
  | nil => rw [List.map_nil, List.length_eq_zero_iff.mp hlength.symm]
  | cons c cells ih =>
    cases words with
    | nil => cases hlength
    | cons v words =>
      obtain ⟨hc, hnodup⟩ := List.nodup_cons.mp hnodup
      have hrest : cells.map (assign σ (c :: cells) (v :: words)) = words := by
        refine Eq.trans ?_ (ih hnodup (Nat.succ.inj hlength))
        refine List.map_congr_left fun d hd => ?_
        have hne : d ≠ c := by
          rintro rfl
          exact hc hd
        rw [assign, Function.update_of_ne hne]
      rw [List.map_cons, hrest, assign, Function.update_self]

/-- Writing what is there changes nothing. -/
theorem assign_map_self : assign σ cells (cells.map σ) = σ := by
  induction cells with
  | nil => rfl
  | cons c cells ih => rw [List.map_cons, assign, ih, Function.update_eq_self]

end Assign

end HotSpot
