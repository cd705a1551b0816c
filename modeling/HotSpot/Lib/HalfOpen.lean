import Mathlib.Data.List.Pairwise
import Mathlib.Order.Bounds.Basic
import Mathlib.Order.Interval.Set.Basic

/-! # Lists of half-open ranges

A list of ranges in ascending order, with space between any two, as the set of the positions in
them.
-/

namespace HotSpot

/-- The positions from `fromPos` up to `toPos`. -/
structure HalfOpen (α : Type*) where
  fromPos : α
  toPos : α
  deriving DecidableEq, Repr

variable {α : Type*} [LinearOrder α]

def HalfOpen.toSet (r : HalfOpen α) : Set α := Set.Ico r.fromPos r.toPos

/-- The positions in the ranges of a list. -/
def rangesSet (rs : List (HalfOpen α)) : Set α := {x | ∃ r ∈ rs, x ∈ r.toSet}

/-- Ranges that are not empty, in ascending order and apart. -/
structure SeparatedRanges (rs : List (HalfOpen α)) : Prop where
  nonempty : ∀ r ∈ rs, r.fromPos < r.toPos
  apart : rs.Pairwise fun r r' => r.toPos < r'.fromPos

variable {r cur : HalfOpen α} {rs rs' before next : List (HalfOpen α)} {x pos : α}

theorem mem_rangesSet : x ∈ rangesSet rs ↔ ∃ r ∈ rs, r.fromPos ≤ x ∧ x < r.toPos := Iff.rfl

@[simp] theorem not_mem_rangesSet_nil : x ∉ rangesSet ([] : List (HalfOpen α)) := by
  simp [mem_rangesSet]

@[simp] theorem mem_rangesSet_cons :
    x ∈ rangesSet (r :: rs) ↔ (r.fromPos ≤ x ∧ x < r.toPos) ∨ x ∈ rangesSet rs := by
  simp only [mem_rangesSet, List.mem_cons, or_and_right, exists_or, exists_eq_left]

@[simp] theorem mem_rangesSet_append :
    x ∈ rangesSet (rs ++ rs') ↔ x ∈ rangesSet rs ∨ x ∈ rangesSet rs' := by
  simp only [mem_rangesSet, List.mem_append, or_and_right, exists_or]

namespace SeparatedRanges

theorem nil : SeparatedRanges ([] : List (HalfOpen α)) := ⟨by simp, .nil⟩

theorem cons_iff : SeparatedRanges (r :: rs) ↔
    r.fromPos < r.toPos ∧ (∀ r' ∈ rs, r.toPos < r'.fromPos) ∧ SeparatedRanges rs := by
  constructor
  · rintro ⟨hnonempty, hapart⟩
    obtain ⟨hr, hrs⟩ := List.forall_mem_cons.1 hnonempty
    obtain ⟨hhead, htail⟩ := List.pairwise_cons.1 hapart
    exact ⟨hr, hhead, hrs, htail⟩
  · rintro ⟨hr, hhead, hrs, htail⟩
    exact ⟨List.forall_mem_cons.2 ⟨hr, hrs⟩, List.pairwise_cons.2 ⟨hhead, htail⟩⟩

theorem append_iff : SeparatedRanges (rs ++ rs') ↔ SeparatedRanges rs ∧ SeparatedRanges rs' ∧
    ∀ r ∈ rs, ∀ r' ∈ rs', r.toPos < r'.fromPos := by
  constructor
  · rintro ⟨hnonempty, hapart⟩
    obtain ⟨hrs, hrs'⟩ := List.forall_mem_append.1 hnonempty
    obtain ⟨hapart, hapart', hcross⟩ := List.pairwise_append.1 hapart
    exact ⟨⟨hrs, hapart⟩, ⟨hrs', hapart'⟩, hcross⟩
  · rintro ⟨⟨hrs, hapart⟩, ⟨hrs', hapart'⟩, hcross⟩
    exact ⟨List.forall_mem_append.2 ⟨hrs, hrs'⟩, List.pairwise_append.2 ⟨hapart, hapart', hcross⟩⟩

theorem tail (hsep : SeparatedRanges (r :: rs)) : SeparatedRanges rs := (cons_iff.1 hsep).2.2

/-- What comes after a range lies behind it. -/
theorem lt_of_mem (hsep : SeparatedRanges (r :: rs)) (hx : x ∈ rangesSet rs) : r.toPos < x := by
  obtain ⟨r', hr', hle, -⟩ := hx
  exact lt_of_lt_of_le ((cons_iff.1 hsep).2.1 r' hr') hle

theorem from_le_of_mem (hsep : SeparatedRanges (r :: rs)) (hx : x ∈ rangesSet (r :: rs)) :
    r.fromPos ≤ x := by
  rcases mem_rangesSet_cons.1 hx with ⟨hle, -⟩ | hx
  · exact hle
  · exact ((cons_iff.1 hsep).1.trans (hsep.lt_of_mem hx)).le

theorem from_mem (hsep : SeparatedRanges (r :: rs)) : r.fromPos ∈ rangesSet (r :: rs) :=
  mem_rangesSet_cons.2 (.inl ⟨le_refl _, (cons_iff.1 hsep).1⟩)

/-- The space behind a range. -/
theorem to_not_mem (hsep : SeparatedRanges (r :: rs)) : r.toPos ∉ rangesSet (r :: rs) := by
  intro hx
  rcases mem_rangesSet_cons.1 hx with ⟨-, hlt⟩ | hx
  · exact lt_irrefl _ hlt
  · exact lt_irrefl _ (hsep.lt_of_mem hx)

/-- The ranges in front of one end before it. -/
theorem lt_of_mem_before (hsep : SeparatedRanges (before ++ cur :: next))
    (hx : x ∈ rangesSet before) : x < cur.fromPos := by
  obtain ⟨r, hr, -, hlt⟩ := hx
  exact hlt.trans ((append_iff.1 hsep).2.2 r hr cur List.mem_cons_self)

/-- A range is cut in two at a position inside. -/
theorem cut (hsep : SeparatedRanges (before ++ cur :: next)) (hfrom : cur.fromPos < pos)
    (hto : pos < cur.toPos) :
    SeparatedRanges (before ++ [⟨cur.fromPos, pos⟩]) ∧
      SeparatedRanges (⟨pos, cur.toPos⟩ :: next) := by
  obtain ⟨hbefore, hcur, hcross⟩ := append_iff.1 hsep
  obtain ⟨-, hnext, htail⟩ := cons_iff.1 hcur
  refine ⟨append_iff.2 ⟨hbefore, cons_iff.2 ⟨hfrom, by simp, nil⟩, ?_⟩,
    cons_iff.2 ⟨hto, hnext, htail⟩⟩
  intro r hr r' hr'
  rw [List.mem_singleton.1 hr']
  exact hcross r hr cur List.mem_cons_self

theorem mem_cut (hsep : SeparatedRanges (before ++ cur :: next)) (hfrom : cur.fromPos < pos)
    (hto : pos < cur.toPos) :
    (x ∈ rangesSet (before ++ [⟨cur.fromPos, pos⟩]) ↔
      x ∈ rangesSet (before ++ cur :: next) ∧ x < pos) ∧
    (x ∈ rangesSet (⟨pos, cur.toPos⟩ :: next) ↔
      x ∈ rangesSet (before ++ cur :: next) ∧ pos ≤ x) := by
  have hbefore : x ∈ rangesSet before → x < pos := fun hx =>
    (hsep.lt_of_mem_before hx).trans hfrom
  have hnext : x ∈ rangesSet next → pos < x := fun hx =>
    hto.trans ((append_iff.1 hsep).2.1.lt_of_mem hx)
  simp only [mem_rangesSet_append, mem_rangesSet_cons, not_mem_rangesSet_nil, or_false]
  constructor
  · constructor
    · rintro (hx | ⟨hle, hlt⟩)
      · exact ⟨.inl hx, hbefore hx⟩
      · exact ⟨.inr (.inl ⟨hle, hlt.trans hto⟩), hlt⟩
    · rintro ⟨hx | ⟨hle, -⟩ | hx, hlt⟩
      · exact .inl hx
      · exact .inr ⟨hle, hlt⟩
      · exact absurd (hnext hx) hlt.not_gt
  · constructor
    · rintro (⟨hle, hlt⟩ | hx)
      · exact ⟨.inr (.inl ⟨hfrom.le.trans hle, hlt⟩), hle⟩
      · exact ⟨.inr (.inr hx), (hnext hx).le⟩
    · rintro ⟨hx | ⟨-, hlt⟩ | hx, hle⟩
      · exact absurd (hbefore hx) hle.not_gt
      · exact .inl ⟨hle, hlt⟩
      · exact .inr hx

/-- The list is cut in two at a position in the space in front of a range. -/
theorem mem_cut_space (hsep : SeparatedRanges (before ++ cur :: next))
    (hbefore : ∀ r ∈ before, r.toPos ≤ pos) (hfrom : pos ≤ cur.fromPos) :
    (x ∈ rangesSet before ↔ x ∈ rangesSet (before ++ cur :: next) ∧ x < pos) ∧
    (x ∈ rangesSet (cur :: next) ↔ x ∈ rangesSet (before ++ cur :: next) ∧ pos ≤ x) := by
  have hlt : x ∈ rangesSet before → x < pos := fun ⟨r, hr, _, hlt⟩ =>
    lt_of_lt_of_le hlt (hbefore r hr)
  have hle : x ∈ rangesSet (cur :: next) → pos ≤ x := fun hx =>
    hfrom.trans ((append_iff.1 hsep).2.1.from_le_of_mem hx)
  rw [mem_rangesSet_append]
  constructor
  · constructor
    · exact fun hx => ⟨.inl hx, hlt hx⟩
    · rintro ⟨hx | hx, hxpos⟩
      · exact hx
      · exact absurd (hle hx) hxpos.not_ge
  · constructor
    · exact fun hx => ⟨.inr hx, hle hx⟩
    · rintro ⟨hx | hx, hxpos⟩
      · exact absurd (hlt hx) hxpos.not_gt
      · exact hx

/-- The last range ends behind all positions. -/
theorem lt_last (hsep : SeparatedRanges rs) (hlast : rs.getLast? = some r)
    (hx : x ∈ rangesSet rs) : x < r.toPos := by
  obtain ⟨before, rfl⟩ := List.getLast?_eq_some_iff.1 hlast
  rcases mem_rangesSet_append.1 hx with hx | hx
  · exact (hsep.lt_of_mem_before hx).trans (hsep.nonempty r (by simp))
  · obtain ⟨-, hlt⟩ | hx := mem_rangesSet_cons.1 hx
    · exact hlt
    · exact absurd hx not_mem_rangesSet_nil

/-- Of two lists the one that ends first loses its first range. -/
theorem inter_tail {r' : HalfOpen α} (hsep' : SeparatedRanges (r' :: rs'))
    (hle : r.toPos ≤ r'.fromPos) :
    rangesSet (r :: rs) ∩ rangesSet (r' :: rs') = rangesSet rs ∩ rangesSet (r' :: rs') := by
  ext x
  refine and_congr_left fun hx => ?_
  rw [mem_rangesSet_cons]
  exact or_iff_right fun ⟨_, hlt⟩ =>
    absurd (hle.trans (hsep'.from_le_of_mem hx)) hlt.not_ge

/-- The later start is common to both, when the other has not ended. -/
theorem isLeast_inter {r' : HalfOpen α} (hsep' : SeparatedRanges (r' :: rs'))
    (hle : r.fromPos ≤ r'.fromPos) (hlt : r'.fromPos < r.toPos) :
    IsLeast (rangesSet (r :: rs) ∩ rangesSet (r' :: rs')) r'.fromPos :=
  ⟨⟨mem_rangesSet_cons.2 (.inl ⟨hle, hlt⟩), hsep'.from_mem⟩,
    fun _ hx => hsep'.from_le_of_mem hx.2⟩

end SeparatedRanges
end HotSpot
