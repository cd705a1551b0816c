import Mathlib.Data.Finite.Prod
import Mathlib.Data.Prod.Lex
import Mathlib.Order.BoundedOrder.Basic
import Mathlib.Order.Lattice
import Mathlib.Data.Fintype.Order
import Mathlib.Order.WellFounded
import HotSpot.Lib.Runs

/-! # Work lists

Every node has a value. Processing a node joins what it contributes into the
values of the nodes, and the nodes whose values changed are pending again. In
whatever order the pending nodes are processed, this ends, and it ends in the
least values that are closed under the contributions.
-/

namespace HotSpot

/-- The values of the nodes and the nodes to be processed. -/
structure Worklist (ι α : Type*) where
  value : ι → α
  pending : Finset ι

namespace Worklist

variable {ι α : Type*} [Fintype ι] [DecidableEq ι] [SemilatticeSup α] [DecidableEq α]

/-- Process the node `n`. -/
def process (contribute : ι → α → ι → α) (s : Worklist ι α) (n : ι) : Worklist ι α where
  value m := s.value m ⊔ contribute n (s.value n) m
  pending := s.pending.erase n ∪
    Finset.univ.filter fun m => s.value m ⊔ contribute n (s.value n) m ≠ s.value m

/-- Every node is pending at first, and any pending node may be processed. -/
def system [OrderBot α] (contribute : ι → α → ι → α) : TransitionSystem (Worklist ι α) where
  init s := s = ⟨fun _ => ⊥, Finset.univ⟩
  step s s' := ∃ n ∈ s.pending, s' = s.process contribute n

/-- Values that take in everything the nodes contribute. -/
def Closed (contribute : ι → α → ι → α) (w : ι → α) : Prop :=
  ∀ n m, contribute n (w n) m ≤ w m

variable {contribute : ι → α → ι → α}

theorem le_process (s : Worklist ι α) (n m : ι) :
    s.value m ≤ (s.process contribute n).value m := le_sup_left

theorem value_process_of_notMem {s : Worklist ι α} {n m : ι}
    (hm : m ∉ (s.process contribute n).pending) :
    (s.process contribute n).value m = s.value m := by
  by_contra hne
  refine hm (Finset.mem_union_right _ (Finset.mem_filter.mpr ⟨Finset.mem_univ m, hne⟩))

/-- Processing a node makes the values grow or takes a node off the list. -/
theorem process_decreases {s : Worklist ι α} {n : ι} (hn : n ∈ s.pending) :
    s.value < (s.process contribute n).value ∨
      s.value = (s.process contribute n).value ∧
        (s.process contribute n).pending.card < s.pending.card := by
  have hle : s.value ≤ (s.process contribute n).value := fun m => s.le_process n m
  rcases hle.lt_or_eq with hlt | heq
  · exact Or.inl hlt
  · refine Or.inr ⟨heq, ?_⟩
    have hsame : (s.process contribute n).pending = s.pending.erase n := by
      refine Finset.union_eq_left.mpr fun m hm => ?_
      exact absurd (congrFun heq m).symm (Finset.mem_filter.mp hm).2
    rw [hsame]
    exact Finset.card_erase_lt_of_mem hn

/-- No run goes on forever. -/
theorem wellFounded_step [OrderBot α] [Finite α] (contribute : ι → α → ι → α) :
    WellFounded fun s' s => (system contribute).step s s' := by
  have hlex : WellFounded (Prod.Lex (fun v w : ι → α => w < v) (fun a b : ℕ => a < b)) :=
    WellFounded.prod_lex wellFounded_gt wellFounded_lt
  refine Subrelation.wf (r := InvImage _ fun s : Worklist ι α => (s.value, s.pending.card)) ?_
    (InvImage.wf _ hlex)
  rintro s' s ⟨n, hn, rfl⟩
  rcases @process_decreases _ _ _ _ _ _ contribute s n hn with hlt | ⟨heq, hlt⟩
  · exact Prod.Lex.left _ _ hlt
  · change Prod.Lex _ _ ((s.process contribute n).value, _) (s.value, _)
    rw [← heq]
    exact Prod.Lex.right _ hlt

section Invariant

variable [OrderBot α] (hmono : ∀ n m, Monotone fun v => contribute n v m)

/-- The nodes that are not pending have been taken in. -/
theorem Reachable.taken_in {s : Worklist ι α} (hs : (system contribute).Reachable s) :
    ∀ n ∉ s.pending, ∀ m, contribute n (s.value n) m ≤ s.value m := by
  refine hs.invariant (P := fun s => ∀ n ∉ s.pending, ∀ m, contribute n (s.value n) m ≤ s.value m)
    ?_ ?_
  · rintro s rfl n hn
    exact absurd (Finset.mem_univ n) hn
  · rintro s _ ih ⟨n, -, rfl⟩ k hk m
    rw [value_process_of_notMem hk]
    by_cases hkn : k = n
    · subst hkn
      exact le_sup_right
    · have hold : k ∉ s.pending := fun hmem =>
        hk (Finset.mem_union_left _ (Finset.mem_erase.mpr ⟨hkn, hmem⟩))
      exact (ih k hold m).trans le_sup_left

include hmono

/-- The values stay below all closed ones. -/
theorem Reachable.value_le {s : Worklist ι α} (hs : (system contribute).Reachable s)
    {w : ι → α} (hw : Closed contribute w) : s.value ≤ w := by
  refine hs.invariant (P := fun s => s.value ≤ w) ?_ ?_
  · rintro s rfl m
    exact bot_le
  · rintro s _ ih ⟨n, -, rfl⟩ m
    exact sup_le (ih m) ((hmono n m (ih n)).trans (hw n m))

/-- With nothing pending, the values are the least closed ones. -/
theorem Reachable.isLeast {s : Worklist ι α} (hs : (system contribute).Reachable s)
    (hdone : s.pending = ∅) : IsLeast {w | Closed contribute w} s.value := by
  refine ⟨fun n m => Reachable.taken_in hs n ?_ m, fun w hw => Reachable.value_le hmono hs hw⟩
  rw [hdone]
  exact Finset.notMem_empty n

end Invariant

end Worklist

end HotSpot
