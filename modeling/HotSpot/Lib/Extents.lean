import Mathlib

/-! # Extents and the words they cover

A list of pairwise disjoint extents of words. Sliding the covered words together
without changing their order sends each to its rank, the number of covered words
before it.
-/

namespace HotSpot

/-- The words from `addr` on, `len` of them. -/
structure Extent where
  addr : Nat
  len : Nat
  deriving DecidableEq, Repr

namespace Extent

def limit (o : Extent) : Nat := o.addr + o.len

/-- The number of words of the extent in `[a, b)`. -/
def overlap (o : Extent) (a b : Nat) : Nat := min b o.limit - max a o.addr

/-- Neither has a word of the other. -/
def Apart (o o' : Extent) : Prop := o.limit ≤ o'.addr ∨ o'.limit ≤ o.addr

def Mem (o : Extent) (w : Nat) : Prop := o.addr ≤ w ∧ w < o.limit

theorem Apart.symm {o o' : Extent} (h : o.Apart o') : o'.Apart o := Or.symm h

theorem overlap_add (o : Extent) {a b c : Nat} (hab : a ≤ b) (hbc : b ≤ c) :
    o.overlap a c = o.overlap a b + o.overlap b c := by
  simp only [overlap, limit]
  omega

theorem overlap_of_le (o : Extent) {a b : Nat} (hba : b ≤ a) : o.overlap a b = 0 := by
  simp only [overlap, limit]
  omega

theorem overlap_succ_of_mem {o : Extent} {w : Nat} (hw : o.Mem w) : o.overlap w (w + 1) = 1 := by
  simp only [Mem, overlap, limit] at *
  omega

theorem overlap_succ_of_not_mem {o : Extent} {w : Nat} (hw : ¬o.Mem w) :
    o.overlap w (w + 1) = 0 := by
  simp only [Mem, overlap, limit] at *
  omega

end Extent

open Extent

/-- The number of words in `[a, b)` that the extents cover. -/
def covered (objs : List Extent) (a b : Nat) : Nat := (objs.map (·.overlap a b)).sum

/-- The number of covered words before `w`. -/
def rank (objs : List Extent) (w : Nat) : Nat := covered objs 0 w

variable {objs : List Extent} {a b c w w' : Nat}

@[simp] theorem covered_nil : covered [] a b = 0 := rfl

@[simp] theorem covered_cons {o : Extent} :
    covered (o :: objs) a b = o.overlap a b + covered objs a b := by
  simp [covered]

theorem covered_append {objs' : List Extent} :
    covered (objs ++ objs') a b = covered objs a b + covered objs' a b := by
  simp [covered]

theorem covered_add (hab : a ≤ b) (hbc : b ≤ c) :
    covered objs a c = covered objs a b + covered objs b c := by
  induction objs with
  | nil => rfl
  | cons o objs ih =>
    rw [covered_cons, covered_cons, covered_cons, ih, o.overlap_add hab hbc]
    omega

theorem covered_of_le (hba : b ≤ a) : covered objs a b = 0 := by
  induction objs with
  | nil => rfl
  | cons o objs ih => rw [covered_cons, ih, o.overlap_of_le hba]

theorem rank_add_covered (hab : a ≤ b) : rank objs a + covered objs a b = rank objs b :=
  (covered_add (Nat.zero_le a) hab).symm

theorem rank_mono (hab : a ≤ b) : rank objs a ≤ rank objs b := by
  rw [← rank_add_covered hab]
  exact Nat.le_add_right _ _

/-- The extents that do not reach into `[a, b)` do not count. -/
theorem covered_eq_zero (h : ∀ o ∈ objs, o.limit ≤ a ∨ b ≤ o.addr) : covered objs a b = 0 := by
  induction objs with
  | nil => rfl
  | cons o objs ih =>
    rw [List.forall_mem_cons] at h
    rw [covered_cons, ih h.2]
    have := h.1
    simp only [overlap]
    omega

theorem overlap_le_covered {o : Extent} (ho : o ∈ objs) : o.overlap a b ≤ covered objs a b := by
  obtain ⟨left, right, rfl⟩ := List.append_of_mem ho
  rw [covered_append, covered_cons]
  omega

theorem apart_of_mem (hapart : objs.Pairwise Apart) {o o' : Extent} (ho : o ∈ objs)
    (ho' : o' ∈ objs) (hne : o ≠ o') : o.Apart o' :=
  have : Std.Symm Apart := ⟨fun _ _ => Apart.symm⟩
  hapart.forall ho ho' hne

/-- The first of the extents that start at `a` or behind it. -/
theorem exists_first_from {o : Extent} (ho : o ∈ objs) (hao : a ≤ o.addr) :
    ∃ first ∈ objs, a ≤ first.addr ∧ first.addr ≤ o.addr ∧
      ∀ o' ∈ objs, a ≤ o'.addr → first.addr ≤ o'.addr := by
  classical
  have hexists : ∃ n, ∃ o' ∈ objs, a ≤ o'.addr ∧ o'.addr = n := ⟨o.addr, o, ho, hao, rfl⟩
  obtain ⟨first, hfirst, hle, heq⟩ := Nat.find_spec hexists
  refine ⟨first, hfirst, hle, ?_, fun o' ho' hao' => ?_⟩
  · rw [heq]
    exact Nat.find_min' hexists ⟨o, ho, hao, rfl⟩
  · rw [heq]
    exact Nat.find_min' hexists ⟨o', ho', hao', rfl⟩

section Disjoint

variable (hapart : objs.Pairwise Apart)
include hapart

/-- One word is covered at most once. -/
theorem covered_succ_le : covered objs w (w + 1) ≤ 1 := by
  induction objs with
  | nil => simp
  | cons o objs ih =>
    rw [List.pairwise_cons] at hapart
    rw [covered_cons]
    by_cases hw : o.Mem w
    · have hrest : covered objs w (w + 1) = 0 := by
        refine covered_eq_zero fun o' ho' => ?_
        have := hapart.1 o' ho'
        simp only [Mem, Apart] at *
        omega
      rw [overlap_succ_of_mem hw, hrest]
    · rw [overlap_succ_of_not_mem hw, Nat.zero_add]
      exact ih hapart.2

theorem covered_le (hab : a ≤ b) : covered objs a b ≤ b - a := by
  induction b, hab using Nat.le_induction with
  | base => rw [covered_of_le le_rfl]; omega
  | succ b hab ih =>
    rw [covered_add hab (by omega : b ≤ b + 1)]
    have := @covered_succ_le objs b hapart
    omega

theorem rank_le_add (hab : a ≤ b) : rank objs b ≤ rank objs a + (b - a) := by
  rw [← rank_add_covered hab]
  exact Nat.add_le_add_left (covered_le hapart hab) _

/-- The covered words of an extent have consecutive ranks. -/
theorem rank_of_mem {o : Extent} (ho : o ∈ objs) (hlow : o.addr ≤ w) (hhigh : w ≤ o.limit) :
    rank objs w = rank objs o.addr + (w - o.addr) := by
  have hover := @overlap_le_covered objs o.addr w o ho
  have hle := covered_le hapart hlow
  have hsum := @rank_add_covered objs _ _ hlow
  simp only [overlap] at hover
  omega

end Disjoint

theorem covered_of_limit_le (h : ∀ o ∈ objs, o.limit ≤ w) :
    covered objs 0 w = (objs.map len).sum := by
  induction objs with
  | nil => rfl
  | cons o objs ih =>
    rw [List.forall_mem_cons] at h
    rw [covered_cons, ih h.2, List.map_cons, List.sum_cons]
    have := h.1
    simp only [overlap, limit] at *
    omega

/-- In a sorted list the rank of an extent is the length of those before it. -/
theorem rank_split {left right : List Extent} {o : Extent}
    (hsorted : (left ++ o :: right).Pairwise fun o o' => o.limit ≤ o'.addr) :
    rank (left ++ o :: right) o.addr = (left.map len).sum := by
  rw [List.pairwise_append, List.pairwise_cons] at hsorted
  obtain ⟨-, ⟨hright, -⟩, hcross⟩ := hsorted
  have hself : o.addr ≤ o.limit := Nat.le_add_right _ _
  rw [rank, covered_append, covered_cons,
    covered_of_limit_le fun o' ho' => hcross o' ho' o List.mem_cons_self,
    covered_eq_zero fun o' ho' => Or.inr (hself.trans (hright o' ho'))]
  simp only [overlap]
  omega

theorem rank_getElem (hsorted : objs.Pairwise fun o o' => o.limit ≤ o'.addr) {i : Nat}
    (hi : i < objs.length) :
    rank objs objs[i].addr = ((objs.take i).map len).sum := by
  have hsplit : objs.take i ++ objs[i] :: objs.drop (i + 1) = objs := by
    rw [List.getElem_cons_drop, List.take_append_drop]
  have hrank := @rank_split (objs.take i) (objs.drop (i + 1)) objs[i] (by rwa [hsplit])
  rwa [hsplit] at hrank

theorem pairwise_apart_of_sorted (hsorted : objs.Pairwise fun o o' => o.limit ≤ o'.addr) :
    objs.Pairwise Apart := hsorted.imp Or.inl

end HotSpot
