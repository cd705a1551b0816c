import Mathlib.Data.List.GetD
import HotSpot.Runtime.Relocator

/-! # The index map of a class redefinition

Where the constants of the new class are in the merged constant pool.
-/

namespace HotSpot

/-- `_index_map_count` and `_index_map_p`, where an index that is not mapped has -1. -/
structure IndexMap where
  count : Nat
  values : List Int
  deriving DecidableEq, Repr

namespace IndexMap

/-- The map of a constant pool of so many entries before the merge. -/
def empty (length : Nat) : IndexMap := ⟨0, List.replicate length (-1)⟩

/-- `find_new_index`: 0 for an index that is not mapped. -/
def findNewIndex (map : IndexMap) (oldIndex : Int) : Int :=
  if map.count = 0 then 0
  else if oldIndex < 1 ∨ oldIndex ≥ map.values.length then 0
  else
    let value := map.values.getD oldIndex.toNat 0
    if value = -1 then 0 else value

/-- `map_index`, which keeps the first mapping. -/
def mapIndex (map : IndexMap) (oldIndex newIndex : Nat) : IndexMap :=
  if map.findNewIndex oldIndex ≠ 0 then map
  else if oldIndex = newIndex then map
  else ⟨map.count + 1, map.values.set oldIndex newIndex⟩

/-- Where a constant is. -/
def newIndex (map : IndexMap) (i : Nat) : Nat :=
  if map.findNewIndex i ≠ 0 then (map.findNewIndex i).toNat else i

/-- What is found is in the map. -/
theorem findNewIndex_mem {map : IndexMap} {i : Int} (h : map.findNewIndex i ≠ 0) :
    map.findNewIndex i ∈ map.values := by
  unfold findNewIndex at h ⊢
  split at h
  next => exact absurd rfl h
  next hcount =>
    split at h
    next => exact absurd rfl h
    next hrange =>
      rw [if_neg hcount, if_neg hrange]
      dsimp only at h ⊢
      split at h
      next => exact absurd rfl h
      next hmapped =>
        rw [if_neg hmapped, List.getD_eq_getElem _ _ (by omega)]
        exact List.getElem_mem _

theorem newIndex_of_eq_zero {map : IndexMap} {i : Nat} (h : map.findNewIndex i = 0) :
    map.newIndex i = i := if_neg (not_not.mpr h)

end IndexMap

end HotSpot
