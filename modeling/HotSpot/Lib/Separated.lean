import Mathlib.Data.List.Infix
import Mathlib.Tactic.Common

/-! # Sequences with a separator

The parts of a list between the occurrences of a separator, of which there is always one.
-/

namespace HotSpot

variable {α : Type*} [DecidableEq α] {sep a : α} {l : List α} {P : List α → Prop}

theorem exists_splitOn_eq (sep : α) (l : List α) : ∃ first rest, l.splitOn sep = first :: rest :=
  List.exists_cons_of_ne_nil (List.splitOn_ne_nil sep l)

theorem splitOn_cons_self (sep : α) (l : List α) :
    (sep :: l).splitOn sep = [] :: l.splitOn sep := by
  rw [List.splitOn_cons_eq_if_modifyHead, if_pos (beq_self_eq_true sep)]

theorem splitOn_cons_of_ne {first : List α} {rest : List (List α)} (hne : a ≠ sep)
    (h : l.splitOn sep = first :: rest) : (a :: l).splitOn sep = (a :: first) :: rest := by
  rw [List.splitOn_cons_eq_if_modifyHead, if_neg (by simpa using hne), h, List.modifyHead_cons]

/-- The parts hold what is not a separator. -/
theorem mem_parts_iff : (∃ part ∈ l.splitOn sep, a ∈ part) ↔ a ∈ l ∧ a ≠ sep := by
  induction l with
  | nil => simp
  | cons b l ih =>
    by_cases hb : b = sep
    · subst hb
      rw [splitOn_cons_self, List.exists_mem_cons_iff, ih]
      simp only [List.not_mem_nil, false_or, List.mem_cons]
      constructor
      · rintro ⟨hmem, hne⟩
        exact ⟨Or.inr hmem, hne⟩
      · rintro ⟨hmem, hne⟩
        exact ⟨hmem.resolve_left hne, hne⟩
    · obtain ⟨first, rest, hsplit⟩ := exists_splitOn_eq sep l
      rw [hsplit, List.exists_mem_cons_iff] at ih
      rw [splitOn_cons_of_ne hb hsplit, List.exists_mem_cons_iff, List.mem_cons, List.mem_cons,
        or_assoc, ih]
      constructor
      · rintro (rfl | ⟨hmem, hne⟩)
        · exact ⟨Or.inl rfl, hb⟩
        · exact ⟨Or.inr hmem, hne⟩
      · rintro ⟨rfl | hmem, hne⟩
        · exact Or.inl rfl
        · exact Or.inr ⟨hmem, hne⟩

/-- Two separators in a row have an empty part between them. -/
theorem nil_mem_parts_of_twice (h : [sep, sep] <:+: l) : [] ∈ l.splitOn sep := by
  obtain ⟨before, behind, rfl⟩ := h
  rw [List.append_assoc, List.cons_append, List.cons_append, List.nil_append,
    List.splitOn_append_cons_self, splitOn_cons_self]
  exact List.mem_append_right _ List.mem_cons_self

end HotSpot
