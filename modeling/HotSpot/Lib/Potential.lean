import Mathlib.Data.Set.Card

/-! # Sequences that change only a bounded number of times

A potential that falls at every change, and rises at no step, bounds how often a sequence
changes.
-/

namespace HotSpot

variable {α : Type*}

/-- The indices at which a sequence changes. -/
def changes (s : Nat → α) : Set Nat := {i | s (i + 1) ≠ s i}

/-- Every change of the sequence lowers the potential. -/
def Lowers (potential : α → Nat) (s : Nat → α) : Prop :=
  ∀ i, s (i + 1) ≠ s i → potential (s (i + 1)) < potential (s i)

namespace Lowers

variable {potential : α → Nat} {s : Nat → α}

theorem le_succ (h : Lowers potential s) (i : Nat) : potential (s (i + 1)) ≤ potential (s i) := by
  by_cases hchange : s (i + 1) = s i
  · rw [hchange]
  · exact (h i hchange).le

theorem antitone (h : Lowers potential s) : Antitone (fun i => potential (s i)) :=
  antitone_nat_of_succ_le h.le_succ

/-- No two changes end at the same potential. -/
theorem injOn (h : Lowers potential s) :
    Set.InjOn (fun i => potential (s (i + 1))) (changes s) := by
  have hlt : ∀ i j, j ∈ changes s → i < j → potential (s (j + 1)) < potential (s (i + 1)) := by
    intro i j hj hij
    exact (h j hj).trans_le (h.antitone (Nat.succ_le_of_lt hij))
  intro i hi j hj heq
  dsimp only at heq
  rcases Nat.lt_trichotomy i j with hij | rfl | hji
  · exact absurd heq.symm (hlt i j hj hij).ne
  · rfl
  · exact absurd heq (hlt j i hi hji).ne

/-- There are no more changes than the potential at the start allows. -/
theorem encard_changes_le (h : Lowers potential s) :
    (changes s).encard ≤ potential (s 0) := by
  have hmaps : Set.MapsTo (fun i => potential (s (i + 1))) (changes s)
      (Finset.range (potential (s 0))) := by
    intro i hi
    rw [Finset.mem_coe, Finset.mem_range]
    exact (h i hi).trans_le (h.antitone (Nat.zero_le i))
  have hle := Set.encard_le_encard_of_injOn hmaps h.injOn
  rw [Set.encard_coe_eq_coe_finsetCard, Finset.card_range] at hle
  exact hle

end Lowers

end HotSpot
