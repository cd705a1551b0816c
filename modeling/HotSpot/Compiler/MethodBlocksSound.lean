import Mathlib.Data.Finset.Max
import Mathlib.Data.List.Basic
import HotSpot.Compiler.MethodLiveness

/-! # The blocks partition the method

While the bytecodes are scanned, the bcis behind are mapped to the block with the
last start before them, and the bcis ahead to the block that starts there, if one
does. So in the end every block goes from its start to the next one, and a transfer
of control is the end of its block.
-/

namespace HotSpot

/-! ## The starts of instructions -/

namespace Contiguous

variable {p stop : Nat} {l : List Instruction}

theorem le (h : Contiguous p l stop) : p ≤ stop := by
  induction l generalizing p with
  | nil => exact h.le
  | cons i l ih =>
    obtain ⟨rfl, hlt, hrest⟩ := h
    exact hlt.le.trans (ih hrest)

theorem bounds (h : Contiguous p l stop) {i : Instruction} (hi : i ∈ l) :
    p ≤ i.bci ∧ i.bci < i.nextBci ∧ i.nextBci ≤ stop := by
  induction l generalizing p with
  | nil => cases hi
  | cons j l ih =>
    obtain ⟨rfl, hlt, hrest⟩ := h
    rcases List.mem_cons.mp hi with rfl | hi
    · exact ⟨le_rfl, hlt, hrest.le⟩
    · obtain ⟨h1, h2, h3⟩ := ih hrest hi
      exact ⟨hlt.le.trans h1, h2, h3⟩

/-- No instruction starts inside another. -/
theorem next_le (h : Contiguous p l stop) {i j : Instruction} (hi : i ∈ l) (hj : j ∈ l)
    (hlt : i.bci < j.bci) : i.nextBci ≤ j.bci := by
  induction l generalizing p with
  | nil => cases hi
  | cons a l ih =>
    obtain ⟨rfl, hnext, hrest⟩ := h
    rcases List.mem_cons.mp hi with rfl | hi' <;> rcases List.mem_cons.mp hj with rfl | hj'
    · exact absurd hlt (lt_irrefl _)
    · exact (hrest.bounds hj').1
    · have := (hrest.bounds hi').1
      omega
    · exact ih hrest hi' hj'

theorem eq_of_bci (h : Contiguous p l stop) {i j : Instruction} (hi : i ∈ l) (hj : j ∈ l)
    (heq : i.bci = j.bci) : i = j := by
  induction l generalizing p with
  | nil => cases hi
  | cons a l ih =>
    obtain ⟨rfl, hlt, hrest⟩ := h
    rcases List.mem_cons.mp hi with rfl | hi' <;> rcases List.mem_cons.mp hj with rfl | hj'
    · rfl
    · have := (hrest.bounds hj').1
      omega
    · have := (hrest.bounds hi').1
      omega
    · exact ih hrest hi' hj'

/-- Behind an instruction is another one, or the end. -/
theorem next_start (h : Contiguous p l stop) {i : Instruction} (hi : i ∈ l)
    (hlt : i.nextBci < stop) : ∃ j ∈ l, j.bci = i.nextBci := by
  induction l generalizing p with
  | nil => cases hi
  | cons a l ih =>
    obtain ⟨rfl, -, hrest⟩ := h
    rcases List.mem_cons.mp hi with rfl | hi'
    · cases l with
      | nil => exact absurd hrest hlt.ne
      | cons j l => exact ⟨j, by simp, hrest.1⟩
    · obtain ⟨j, hj, hbci⟩ := ih hrest hi'
      exact ⟨j, List.mem_cons_of_mem _ hj, hbci⟩

end Contiguous

namespace CiMethodBlocks

/-! ## The state of the scan -/

def IsBlockStart (s : CiMethodBlocks) (bci : Nat) : Prop :=
  ∃ i < s.numBlocks, (s.blocks i).startBci = bci

/-- The block has the last start up to the bci. -/
structure Contains (s : CiMethodBlocks) (i bci : Nat) : Prop where
  lt : i < s.numBlocks
  le : (s.blocks i).startBci ≤ bci
  last : ∀ j < s.numBlocks, (s.blocks j).startBci ≤ bci → (s.blocks j).startBci ≤
    (s.blocks i).startBci

/-- The bcis below `p` have been scanned, and the transfers of control below `q` noted. -/
structure Scanned (m : CiMethod) (s : CiMethodBlocks) (p q : Nat) : Prop where
  zero : s.IsBlockStart 0
  inj : ∀ i < s.numBlocks, ∀ j < s.numBlocks,
    (s.blocks i).startBci = (s.blocks j).startBci → i = j
  isStart : ∀ i < s.numBlocks, m.IsStart (s.blocks i).startBci
  ahead : ∀ bci, p ≤ bci → ∀ i, s.bciToBlock bci = some i ↔
    i < s.numBlocks ∧ (s.blocks i).startBci = bci
  behind : ∀ bci < p, ∀ i, s.bciToBlock bci = some i ↔ m.IsStart bci ∧ s.Contains i bci
  limit : ∀ i < s.numBlocks, ∀ j < s.numBlocks, (s.blocks i).startBci < (s.blocks j).startBci →
    (s.blocks j).startBci < p → s.IsBlockStart (s.blocks i).limitBci ∧
      (s.blocks i).startBci < (s.blocks i).limitBci ∧
      (s.blocks i).limitBci ≤ (s.blocks j).startBci
  control : ∀ i < s.numBlocks, ∀ c, (s.blocks i).controlBci = some c ↔
    ∃ a ∈ m.instructions, a.bci = c ∧ c < q ∧ a.code.control ≠ .fallThrough ∧ s.Contains i c
  ends : ∀ a ∈ m.instructions, a.bci < q → a.code.control ≠ .fallThrough → a.nextBci < p →
    s.IsBlockStart a.nextBci

variable {m : CiMethod} {s : CiMethodBlocks} {p q : Nat}

theorem Scanned.contains_unique (h : Scanned m s p q) {i j bci : Nat} (hi : s.Contains i bci)
    (hj : s.Contains j bci) : i = j :=
  h.inj i hi.lt j hj.lt (le_antisymm (hj.last i hi.lt hi.le) (hi.last j hj.lt hj.le))

/-- The block with the last start. -/
theorem Scanned.exists_contains (h : Scanned m s p q) (bci : Nat) : ∃ i, s.Contains i bci := by
  obtain ⟨z, hz, hzero⟩ := h.zero
  have hne : ((Finset.range s.numBlocks).filter fun i => (s.blocks i).startBci ≤ bci).Nonempty :=
    ⟨z, Finset.mem_filter.mpr ⟨Finset.mem_range.mpr hz, by omega⟩⟩
  obtain ⟨i, hi, hmax⟩ := Finset.exists_max_image _ (fun i => (s.blocks i).startBci) hne
  obtain ⟨hlt, hle⟩ := Finset.mem_filter.mp hi
  refine ⟨i, Finset.mem_range.mp hlt, hle, fun j hj hjle => ?_⟩
  exact hmax j (Finset.mem_filter.mpr ⟨Finset.mem_range.mpr hj, hjle⟩)

/-! ## Making a block -/

/-- A block was made at `t`: the starts are the old ones and this one, and the block that
holds a bci from `t` on or from below it still does. -/
structure Makes (s s' : CiMethodBlocks) (p t : Nat) : Prop where
  starts : ∀ bci, s'.IsBlockStart bci ↔ s.IsBlockStart bci ∨ bci = t
  contains : ∀ i bci, s.Contains i bci → bci < p → t ≤ bci ∨ p ≤ t → s'.Contains i bci

section Append

/-- A block that starts ahead of the scan. -/
def appendBlock (s : CiMethodBlocks) (t : Nat) : CiMethodBlocks where
  blocks := Function.update s.blocks s.numBlocks ⟨t, 0, none⟩
  numBlocks := s.numBlocks + 1
  bciToBlock := Function.update s.bciToBlock t (some s.numBlocks)

variable {t : Nat}

theorem blocks_appendBlock {i : Nat} (hi : i < s.numBlocks) :
    (s.appendBlock t).blocks i = s.blocks i :=
  Function.update_of_ne hi.ne _ _

/-- A block is an old one or the new one. -/
theorem appendBlock_cases {i : Nat} (hi : i < (s.appendBlock t).numBlocks) :
    i < s.numBlocks ∧ (s.appendBlock t).blocks i = s.blocks i ∨
      i = s.numBlocks ∧ (s.appendBlock t).blocks i = ⟨t, 0, none⟩ := by
  rcases Nat.lt_succ_iff_lt_or_eq.mp hi with hi | rfl
  · exact Or.inl ⟨hi, blocks_appendBlock hi⟩
  · exact Or.inr ⟨rfl, Function.update_self ..⟩

theorem isBlockStart_appendBlock (bci : Nat) :
    (s.appendBlock t).IsBlockStart bci ↔ s.IsBlockStart bci ∨ bci = t := by
  constructor
  · rintro ⟨i, hi, hstart⟩
    rcases appendBlock_cases hi with ⟨hi, hblock⟩ | ⟨-, hblock⟩
    · exact Or.inl ⟨i, hi, by rw [← hstart, hblock]⟩
    · exact Or.inr (by rw [← hstart, hblock])
  · rintro (⟨i, hi, hstart⟩ | rfl)
    · exact ⟨i, Nat.lt_succ_of_lt hi, by rw [blocks_appendBlock hi, hstart]⟩
    · exact ⟨s.numBlocks, Nat.lt_succ_self _, by simp [appendBlock]⟩

/-- The new block holds nothing that was scanned. -/
theorem contains_appendBlock {i bci : Nat} (hbci : bci < t) :
    (s.appendBlock t).Contains i bci ↔ s.Contains i bci := by
  constructor
  · rintro ⟨hlt, hle, hlast⟩
    rcases appendBlock_cases hlt with ⟨hi, hblock⟩ | ⟨-, hblock⟩
    · rw [hblock] at hle hlast
      refine ⟨hi, hle, fun j hj hjle => ?_⟩
      have hj' := hlast j (Nat.lt_succ_of_lt hj)
      rw [blocks_appendBlock hj] at hj'
      exact hj' hjle
    · rw [hblock] at hle
      exact absurd hle (not_le.mpr hbci)
  · rintro ⟨hi, hle, hlast⟩
    refine ⟨Nat.lt_succ_of_lt hi, by rwa [blocks_appendBlock hi], fun j hj hjle => ?_⟩
    rw [blocks_appendBlock hi]
    rcases appendBlock_cases hj with ⟨hj, hblock⟩ | ⟨-, hblock⟩
    · rw [hblock] at hjle ⊢
      exact hlast j hj hjle
    · rw [hblock] at hjle
      exact absurd hjle (not_le.mpr hbci)

theorem Scanned.appendBlock (h : Scanned m s p q) (hq : q ≤ p) (ht : m.IsStart t) (hp : p ≤ t)
    (hnot : ¬ s.IsBlockStart t) : Scanned m (s.appendBlock t) p q := by
  have hne : ∀ i < s.numBlocks, (s.blocks i).startBci ≠ t := fun i hi hstart => hnot ⟨i, hi, hstart⟩
  constructor
  case zero => exact (isBlockStart_appendBlock 0).mpr (Or.inl h.zero)
  case inj =>
    intro i hi j hj heq
    rcases appendBlock_cases hi with ⟨hi, hbi⟩ | ⟨hi, hbi⟩ <;>
      rcases appendBlock_cases hj with ⟨hj, hbj⟩ | ⟨hj, hbj⟩ <;> rw [hbi, hbj] at heq
    · exact h.inj i hi j hj heq
    · exact absurd heq (hne i hi)
    · exact absurd heq.symm (hne j hj)
    · exact hi.trans hj.symm
  case isStart =>
    intro i hi
    rcases appendBlock_cases hi with ⟨hi, hbi⟩ | ⟨rfl, hbi⟩ <;> rw [hbi]
    · exact h.isStart i hi
    · exact ht
  case ahead =>
    intro bci hbci i
    by_cases hbt : bci = t
    · subst hbt
      change Function.update _ _ _ _ = _ ↔ _
      rw [Function.update_self]
      constructor
      · intro heq
        obtain rfl := Option.some.inj heq
        exact ⟨Nat.lt_succ_self _, by simp [CiMethodBlocks.appendBlock]⟩
      · rintro ⟨hi, hstart⟩
        rcases appendBlock_cases hi with ⟨hi, hbi⟩ | ⟨rfl, -⟩
        · rw [hbi] at hstart
          exact absurd hstart (hne i hi)
        · rfl
    · change Function.update _ _ _ _ = _ ↔ _
      rw [Function.update_of_ne hbt, h.ahead bci hbci]
      constructor
      · rintro ⟨hi, hstart⟩
        exact ⟨Nat.lt_succ_of_lt hi, by rw [blocks_appendBlock hi, hstart]⟩
      · rintro ⟨hi, hstart⟩
        rcases appendBlock_cases hi with ⟨hi, hbi⟩ | ⟨-, hbi⟩ <;> rw [hbi] at hstart
        · exact ⟨hi, hstart⟩
        · exact absurd hstart.symm hbt
  case behind =>
    intro bci hbci i
    have hbt : bci ≠ t := by omega
    rw [contains_appendBlock (by omega)]
    change Function.update _ _ _ bci = _ ↔ _
    rw [Function.update_of_ne hbt]
    exact h.behind bci hbci i
  case limit =>
    intro i hi j hj hlt hjp
    rcases appendBlock_cases hj with ⟨hj, hbj⟩ | ⟨rfl, hbj⟩ <;> rw [hbj] at hlt hjp ⊢
    · rcases appendBlock_cases hi with ⟨hi, hbi⟩ | ⟨rfl, hbi⟩ <;> rw [hbi] at hlt ⊢
      · obtain ⟨hstart, hrest⟩ := h.limit i hi j hj hlt hjp
        exact ⟨(isBlockStart_appendBlock _).mpr (Or.inl hstart), hrest⟩
      · exact absurd hjp (by simp only at hlt; omega)
    · exact absurd hjp (not_lt.mpr hp)
  case control =>
    intro i hi c
    rcases appendBlock_cases hi with ⟨hi, hbi⟩ | ⟨rfl, hbi⟩ <;> rw [hbi]
    · rw [h.control i hi c]
      refine exists_congr fun a => and_congr_right fun _ => and_congr_right fun _ => ?_
      refine and_congr_right fun hc => and_congr_right fun _ => ?_
      exact (contains_appendBlock (by omega)).symm
    · refine iff_of_false (by simp) ?_
      rintro ⟨a, -, -, hc, -, hcontains⟩
      have hle := hcontains.le
      rw [hbi] at hle
      simp only at hle
      omega
  case ends =>
    intro a ha haq hcontrol hnext
    exact (isBlockStart_appendBlock _).mpr (Or.inl (h.ends a ha haq hcontrol hnext))

theorem makes_appendBlock (hp : p ≤ t) : Makes s (s.appendBlock t) p t where
  starts := isBlockStart_appendBlock
  contains i bci hcontains hbci _ := (contains_appendBlock (by omega)).mpr hcontains

end Append

section Split

variable {cb t : Nat}

/-- The backwards walk replaces all the bcis of the block below `pos`, if no other block
comes between them. -/
theorem replaceBelow_eq {former new : Nat} (pos : Nat) (map : Nat → Option Nat)
    (h : ∀ i < pos, map i = some former → ∀ j, i ≤ j → j < pos →
      map j = none ∨ map j = some former) (bci : Nat) :
    replaceBelow former new pos map bci =
      if bci < pos ∧ map bci = some former then some new else map bci := by
  induction pos generalizing map with
  | zero => simp [replaceBelow]
  | succ pos ih =>
    have hbelow : ∀ i < pos, map i = some former → ∀ j, i ≤ j → j < pos →
        map j = none ∨ map j = some former := fun i hi hmap j hij hj =>
      h i (by omega) hmap j hij (by omega)
    rw [replaceBelow]
    cases hpos : map pos with
    | none =>
      simp only
      rw [ih map hbelow]
      by_cases hb : bci = pos
      · subst hb
        simp [hpos]
      · have hiff : bci < pos ↔ bci < pos + 1 := by omega
        simp only [hiff]
    | some current =>
      simp only
      by_cases hcur : current = former
      · subst hcur
        rw [if_pos rfl, ih]
        · by_cases hb : bci = pos
          · subst hb
            simp [hpos]
          · have hiff : bci < pos ↔ bci < pos + 1 := by omega
            simp only [Function.update_of_ne hb, hiff]
        · intro i hi hmap j hij hj
          rw [Function.update_of_ne (by omega)] at hmap
          rw [Function.update_of_ne (by omega)]
          exact hbelow i hi hmap j hij hj
      · rw [if_neg hcur, if_neg]
        rintro ⟨hlt, hmap⟩
        rcases h bci hlt hmap pos (by omega) (by omega) with hnone | hsome
        · rw [hpos] at hnone
          cases hnone
        · rw [hpos] at hsome
          exact hcur (Option.some.inj hsome)

/-- A block is the second half, the new first half, or another one. -/
theorem splitBlockAt_cases (hcb : cb < s.numBlocks) {i : Nat}
    (hi : i < (s.splitBlockAt t cb).numBlocks) :
    i = cb ∧ (s.splitBlockAt t cb).blocks i = { s.blocks cb with startBci := t } ∨
      i = s.numBlocks ∧ (s.splitBlockAt t cb).blocks i = ⟨(s.blocks cb).startBci, t, none⟩ ∨
      i < s.numBlocks ∧ i ≠ cb ∧ (s.splitBlockAt t cb).blocks i = s.blocks i := by
  by_cases hicb : i = cb
  · subst hicb
    exact Or.inl ⟨rfl, Function.update_self ..⟩
  · refine Or.inr ?_
    rcases Nat.lt_succ_iff_lt_or_eq.mp hi with hi | rfl
    · refine Or.inr ⟨hi, hicb, ?_⟩
      change Function.update (Function.update _ _ _) _ _ i = _
      rw [Function.update_of_ne hicb, Function.update_of_ne hi.ne]
    · refine Or.inl ⟨rfl, ?_⟩
      change Function.update (Function.update _ _ _) _ _ _ = _
      rw [Function.update_of_ne hicb, Function.update_self]

theorem blocks_split_former :
    (s.splitBlockAt t cb).blocks cb = { s.blocks cb with startBci := t } :=
  Function.update_self ..

theorem blocks_split_new (hcb : cb < s.numBlocks) :
    (s.splitBlockAt t cb).blocks s.numBlocks = ⟨(s.blocks cb).startBci, t, none⟩ := by
  change Function.update (Function.update _ _ _) _ _ _ = _
  rw [Function.update_of_ne hcb.ne', Function.update_self]

theorem blocks_split_other {i : Nat} (hi : i < s.numBlocks) (hne : i ≠ cb) :
    (s.splitBlockAt t cb).blocks i = s.blocks i := by
  change Function.update (Function.update _ _ _) _ _ i = _
  rw [Function.update_of_ne hne, Function.update_of_ne hi.ne]

theorem isBlockStart_split (hcb : cb < s.numBlocks) (bci : Nat) :
    (s.splitBlockAt t cb).IsBlockStart bci ↔ s.IsBlockStart bci ∨ bci = t := by
  constructor
  · rintro ⟨i, hi, hstart⟩
    rcases splitBlockAt_cases hcb hi with ⟨-, hb⟩ | ⟨-, hb⟩ | ⟨hi, -, hb⟩ <;> rw [hb] at hstart
    · exact Or.inr hstart.symm
    · exact Or.inl ⟨cb, hcb, hstart⟩
    · exact Or.inl ⟨i, hi, hstart⟩
  · rintro (⟨i, hi, hstart⟩ | rfl)
    · by_cases hicb : i = cb
      · subst hicb
        exact ⟨s.numBlocks, Nat.lt_succ_self _, by rw [blocks_split_new hi, hstart]⟩
      · exact ⟨i, Nat.lt_succ_of_lt hi, by rw [blocks_split_other hi hicb, hstart]⟩
    · exact ⟨cb, Nat.lt_succ_of_lt hcb, by rw [blocks_split_former]⟩

theorem inj_split (h : Scanned m s p q) (hcontains : s.Contains cb t)
    (hne : (s.blocks cb).startBci ≠ t) :
    ∀ i < (s.splitBlockAt t cb).numBlocks, ∀ j < (s.splitBlockAt t cb).numBlocks,
      ((s.splitBlockAt t cb).blocks i).startBci = ((s.splitBlockAt t cb).blocks j).startBci →
        i = j := by
  have hcb := hcontains.lt
  have hlt : (s.blocks cb).startBci < t := lt_of_le_of_ne hcontains.le hne
  have hnot : ∀ i < s.numBlocks, (s.blocks i).startBci ≠ t := by
    intro i hi hstart
    have := hcontains.last i hi hstart.le
    omega
  intro i hi j hj heq
  rcases splitBlockAt_cases hcb hi with ⟨hi, hbi⟩ | ⟨hi, hbi⟩ | ⟨hi, hicb, hbi⟩ <;>
    rcases splitBlockAt_cases hcb hj with ⟨hj, hbj⟩ | ⟨hj, hbj⟩ | ⟨hj, hjcb, hbj⟩ <;>
    rw [hbi, hbj] at heq
  · exact hi.trans hj.symm
  · exact absurd heq hlt.ne'
  · exact absurd heq.symm (hnot j hj)
  · exact absurd heq hlt.ne
  · exact hi.trans hj.symm
  · exact absurd (h.inj cb hcb j hj heq).symm hjcb
  · exact absurd heq (hnot i hi)
  · exact absurd (h.inj i hi cb hcb heq) hicb
  · exact h.inj i hi j hj heq

theorem Contains.unique (hinj : ∀ i < s.numBlocks, ∀ j < s.numBlocks,
    (s.blocks i).startBci = (s.blocks j).startBci → i = j) {i j bci : Nat}
    (hi : s.Contains i bci) (hj : s.Contains j bci) : i = j :=
  hinj i hi.lt j hj.lt (le_antisymm (hj.last i hi.lt hi.le) (hi.last j hj.lt hj.le))

/-- The first half holds what lies below `t`. -/
theorem contains_split_new (hcontains : s.Contains cb t) {bci : Nat} (hbci : s.Contains cb bci)
    (hlt : bci < t) : (s.splitBlockAt t cb).Contains s.numBlocks bci := by
  have hcb := hcontains.lt
  refine ⟨Nat.lt_succ_self _, ?_, fun j hj hle => ?_⟩
  · rw [blocks_split_new hcb]
    exact hbci.le
  · rw [blocks_split_new hcb]
    rcases splitBlockAt_cases hcb hj with ⟨-, hb⟩ | ⟨-, hb⟩ | ⟨hj, -, hb⟩ <;> rw [hb] at hle ⊢
    · exact absurd hle (not_le.mpr hlt)
    · exact hbci.last j hj hle

/-- A block keeps what it holds from `t` on, or if it is not the one that is split. -/
theorem contains_split_old (h : Scanned m s p q) (hcontains : s.Contains cb t) {i bci : Nat}
    (hbci : s.Contains i bci) (hor : t ≤ bci ∨ i ≠ cb) :
    (s.splitBlockAt t cb).Contains i bci := by
  have hcb := hcontains.lt
  by_cases hicb : i = cb
  · subst hicb
    have ht : t ≤ bci := hor.resolve_right (by simp)
    refine ⟨Nat.lt_succ_of_lt hcb, by rw [blocks_split_former]; exact ht, fun j hj hle => ?_⟩
    rw [blocks_split_former]
    rcases splitBlockAt_cases hcb hj with ⟨-, hb⟩ | ⟨-, hb⟩ | ⟨hj, -, hb⟩ <;> rw [hb] at hle ⊢
    · exact hcontains.le
    · exact (hbci.last j hj hle).trans hcontains.le
  · refine ⟨Nat.lt_succ_of_lt hbci.lt, by rw [blocks_split_other hbci.lt hicb]; exact hbci.le,
      fun j hj hle => ?_⟩
    rw [blocks_split_other hbci.lt hicb]
    rcases splitBlockAt_cases hcb hj with ⟨-, hb⟩ | ⟨-, hb⟩ | ⟨hj, -, hb⟩ <;> rw [hb] at hle ⊢
    · -- A start between `t` and the block would be the start of the block that holds `t`.
      by_contra hgt
      have h1 := hcontains.last i hbci.lt (by simp only at hgt; omega)
      have h2 := hbci.last cb hcb (hcontains.le.trans hle)
      exact hicb (h.inj i hbci.lt cb hcb (le_antisymm h1 h2))
    · exact hbci.last cb hcb hle
    · exact hbci.last j hj hle

/-- No transfer of control has been noted in the first half. -/
theorem Scanned.not_control (h : Scanned m s p q) (hv : m.Confined) (hcontains : s.Contains cb t)
    (ht : m.IsStart t) (htp : t < p) {a : Instruction} (ha : a ∈ m.instructions) (haq : a.bci < q)
    (hcontrol : a.code.control ≠ .fallThrough) (hle : (s.blocks cb).startBci ≤ a.bci) :
    t ≤ a.bci := by
  by_contra hlt
  obtain ⟨b, hb, rfl⟩ := ht
  have hnext := hv.contiguous.next_le ha hb (by omega)
  have hbounds := hv.contiguous.bounds ha
  obtain ⟨j, hj, hstart⟩ := h.ends a ha haq hcontrol (by omega)
  have := hcontains.last j hj (by omega)
  omega

/-- Only the bcis of the first half are held by another block. -/
theorem contains_split_iff (h : Scanned m s p q) (hcontains : s.Contains cb t)
    (hne : (s.blocks cb).startBci ≠ t) {i bci : Nat} (hnot : ¬ (bci < t ∧ s.Contains cb bci)) :
    (s.splitBlockAt t cb).Contains i bci ↔ s.Contains i bci := by
  have hold : ∀ j, s.Contains j bci → (s.splitBlockAt t cb).Contains j bci := by
    intro j hj
    refine contains_split_old h hcontains hj ?_
    by_contra hor
    obtain ⟨hlt, hjcb⟩ := not_or.mp hor
    obtain rfl := not_not.mp hjcb
    exact hnot ⟨not_le.mp hlt, hj⟩
  constructor
  · intro hi
    obtain ⟨j, hj⟩ := h.exists_contains bci
    rwa [Contains.unique (inj_split h hcontains hne) hi (hold j hj)]
  · exact hold i

/-- The map after a split: the bcis of the first half go to the new block. -/
theorem bciToBlock_split (h : Scanned m s p q) (hcontains : s.Contains cb t) (htp : t < p)
    (bci : Nat) : (s.splitBlockAt t cb).bciToBlock bci =
      if bci < t ∧ s.bciToBlock bci = some cb then some s.numBlocks else s.bciToBlock bci := by
  refine replaceBelow_eq t s.bciToBlock (fun i hi hmap j hij hj => ?_) bci
  obtain ⟨-, hcb⟩ := (h.behind i (by omega) cb).mp hmap
  have hcbj : s.Contains cb j := ⟨hcb.lt, hcb.le.trans hij, fun l hl hle =>
    hcontains.last l hl (by omega)⟩
  cases hj' : s.bciToBlock j with
  | none => exact Or.inl rfl
  | some x =>
    obtain ⟨-, hx⟩ := (h.behind j (by omega) x).mp hj'
    exact Or.inr (congrArg some (h.contains_unique hx hcbj))

theorem behind_split (h : Scanned m s p q) (hcontains : s.Contains cb t)
    (hne : (s.blocks cb).startBci ≠ t) (htp : t < p) : ∀ bci < p, ∀ i,
      (s.splitBlockAt t cb).bciToBlock bci = some i ↔
        m.IsStart bci ∧ (s.splitBlockAt t cb).Contains i bci := by
  intro bci hbci i
  rw [bciToBlock_split h hcontains htp]
  split
  next hfirst =>
    obtain ⟨hstart, hcb⟩ := (h.behind bci hbci cb).mp hfirst.2
    have hnew := contains_split_new hcontains hcb hfirst.1
    constructor
    · intro heq
      obtain rfl := Option.some.inj heq
      exact ⟨hstart, hnew⟩
    · rintro ⟨-, hi⟩
      exact congrArg some (Contains.unique (inj_split h hcontains hne) hnew hi)
  next hother =>
    rw [h.behind bci hbci i]
    refine and_congr_right fun hstart => (contains_split_iff h hcontains hne ?_).symm
    rintro ⟨hlt, hcb⟩
    exact hother ⟨hlt, (h.behind bci hbci cb).mpr ⟨hstart, hcb⟩⟩

theorem limit_split (h : Scanned m s p q) (hcontains : s.Contains cb t)
    (hne : (s.blocks cb).startBci ≠ t) (htp : t < p) :
    ∀ i < (s.splitBlockAt t cb).numBlocks, ∀ j < (s.splitBlockAt t cb).numBlocks,
      ((s.splitBlockAt t cb).blocks i).startBci < ((s.splitBlockAt t cb).blocks j).startBci →
      ((s.splitBlockAt t cb).blocks j).startBci < p →
        (s.splitBlockAt t cb).IsBlockStart ((s.splitBlockAt t cb).blocks i).limitBci ∧
        ((s.splitBlockAt t cb).blocks i).startBci < ((s.splitBlockAt t cb).blocks i).limitBci ∧
        ((s.splitBlockAt t cb).blocks i).limitBci ≤
          ((s.splitBlockAt t cb).blocks j).startBci := by
  have hcb := hcontains.lt
  have hcbt : (s.blocks cb).startBci < t := lt_of_le_of_ne hcontains.le hne
  have hstarts : ∀ bci, s.IsBlockStart bci → (s.splitBlockAt t cb).IsBlockStart bci :=
    fun bci hbci => (isBlockStart_split hcb bci).mpr (Or.inl hbci)
  intro i hi j hj hlt hjp
  rcases splitBlockAt_cases hcb hi with ⟨-, hbi⟩ | ⟨-, hbi⟩ | ⟨hi, hicb, hbi⟩ <;>
    rw [hbi] at hlt ⊢ <;>
    rcases splitBlockAt_cases hcb hj with ⟨-, hbj⟩ | ⟨-, hbj⟩ | ⟨hj, hjcb, hbj⟩ <;>
    rw [hbj] at hlt hjp ⊢
  · exact absurd hlt (lt_irrefl _)
  · exact absurd hlt (by simp only; omega)
  · simp only at hlt ⊢
    obtain ⟨⟨l, hl, hlimit⟩, hpos, hle⟩ := h.limit cb hcb j hj (by omega) hjp
    refine ⟨hstarts _ ⟨l, hl, hlimit⟩, ?_, hle⟩
    by_contra hge
    have := hcontains.last l hl (by omega)
    omega
  · exact ⟨(isBlockStart_split hcb _).mpr (Or.inr rfl), hcbt, le_rfl⟩
  · exact absurd hlt (lt_irrefl _)
  · refine ⟨(isBlockStart_split hcb _).mpr (Or.inr rfl), hcbt, ?_⟩
    by_contra hge
    have := hcontains.last j hj (by simp only at hge; omega)
    simp only at hlt
    omega
  · have hle := hcontains.last i hi (by simp only at hlt; omega)
    have hne' : (s.blocks i).startBci ≠ (s.blocks cb).startBci := fun heq =>
      hicb (h.inj i hi cb hcb heq)
    obtain ⟨hstart, hpos, hlimit⟩ := h.limit i hi cb hcb (by omega) (by omega)
    exact ⟨hstarts _ hstart, hpos, hlimit.trans hcbt.le⟩
  · obtain ⟨hstart, hrest⟩ := h.limit i hi cb hcb hlt hjp
    exact ⟨hstarts _ hstart, hrest⟩
  · obtain ⟨hstart, hrest⟩ := h.limit i hi j hj hlt hjp
    exact ⟨hstarts _ hstart, hrest⟩

theorem control_split (h : Scanned m s p q) (hv : m.Confined) (hcontains : s.Contains cb t)
    (hne : (s.blocks cb).startBci ≠ t) (ht : m.IsStart t) (htp : t < p) :
    ∀ i < (s.splitBlockAt t cb).numBlocks, ∀ c,
      ((s.splitBlockAt t cb).blocks i).controlBci = some c ↔
        ∃ a ∈ m.instructions, a.bci = c ∧ c < q ∧ a.code.control ≠ .fallThrough ∧
          (s.splitBlockAt t cb).Contains i c := by
  have hcb := hcontains.lt
  -- A transfer of control that was noted is not in the first half.
  have hiff : ∀ a ∈ m.instructions, a.bci < q → a.code.control ≠ .fallThrough → ∀ i,
      (s.splitBlockAt t cb).Contains i a.bci ↔ s.Contains i a.bci := by
    intro a ha haq hcontrol i
    refine contains_split_iff h hcontains hne ?_
    rintro ⟨hlt, hcba⟩
    have := h.not_control hv hcontains ht htp ha haq hcontrol hcba.le
    omega
  have hold : ∀ i < s.numBlocks, ∀ c, (s.blocks i).controlBci = some c ↔
      ∃ a ∈ m.instructions, a.bci = c ∧ c < q ∧ a.code.control ≠ .fallThrough ∧
        (s.splitBlockAt t cb).Contains i c := by
    intro i hi c
    rw [h.control i hi c]
    refine exists_congr fun a => and_congr_right fun ha => and_congr_right fun hac => ?_
    subst hac
    refine and_congr_right fun haq => and_congr_right fun hcontrol => ?_
    exact (hiff a ha haq hcontrol i).symm
  intro i hi c
  rcases splitBlockAt_cases hcb hi with ⟨rfl, hb⟩ | ⟨rfl, hb⟩ | ⟨hi, -, hb⟩ <;> rw [hb]
  · exact hold _ hcb c
  · refine iff_of_false (by simp) ?_
    rintro ⟨a, ha, rfl, haq, hcontrol, hnew⟩
    exact absurd ((hiff a ha haq hcontrol _).mp hnew).lt (lt_irrefl _)
  · exact hold i hi c

theorem Scanned.splitBlockAt (h : Scanned m s p q) (hv : m.Confined)
    (hcontains : s.Contains cb t) (hne : (s.blocks cb).startBci ≠ t) (ht : m.IsStart t)
    (htp : t < p) : Scanned m (s.splitBlockAt t cb) p q := by
  have hcb := hcontains.lt
  have hlt : (s.blocks cb).startBci < t := lt_of_le_of_ne hcontains.le hne
  constructor
  case zero => exact (isBlockStart_split hcb 0).mpr (Or.inl h.zero)
  case inj => exact inj_split h hcontains hne
  case isStart =>
    intro i hi
    rcases splitBlockAt_cases hcb hi with ⟨-, hb⟩ | ⟨-, hb⟩ | ⟨hi, -, hb⟩ <;> rw [hb]
    · exact ht
    · exact h.isStart cb hcb
    · exact h.isStart i hi
  case ahead =>
    intro bci hbci i
    rw [bciToBlock_split h hcontains htp, if_neg (by omega), h.ahead bci hbci]
    constructor
    · rintro ⟨hi, hstart⟩
      have hicb : i ≠ cb := by
        rintro rfl
        omega
      exact ⟨Nat.lt_succ_of_lt hi, by rw [blocks_split_other hi hicb, hstart]⟩
    · rintro ⟨hi, hstart⟩
      rcases splitBlockAt_cases hcb hi with ⟨-, hb⟩ | ⟨-, hb⟩ | ⟨hi, -, hb⟩ <;>
        rw [hb] at hstart
      · exact absurd hstart (by simp only; omega)
      · exact absurd hstart (by simp only; omega)
      · exact ⟨hi, hstart⟩
  case behind => exact behind_split h hcontains hne htp
  case limit => exact limit_split h hcontains hne htp
  case control => exact control_split h hv hcontains hne ht htp
  case ends =>
    intro a ha haq hcontrol hnext
    exact (isBlockStart_split hcb _).mpr (Or.inl (h.ends a ha haq hcontrol hnext))

theorem makes_split (h : Scanned m s p q) (hcontains : s.Contains cb t) (htp : t < p) :
    Makes s (s.splitBlockAt t cb) p t where
  starts := isBlockStart_split hcontains.lt
  contains i bci hbci _ hor := contains_split_old h hcontains hbci (Or.inl (by omega))

end Split

/-- A block that is there already. -/
theorem makes_refl {t : Nat} (ht : s.IsBlockStart t) : Makes s s p t where
  starts bci := by
    refine ⟨Or.inl, ?_⟩
    rintro (hbci | rfl)
    · exact hbci
    · exact ht
  contains i bci hcontains _ _ := hcontains

/-- Making a block ahead of the scan or behind it. -/
theorem Scanned.makeBlockAt (h : Scanned m s p q) (hv : m.Confined) (hq : q ≤ p) {t : Nat}
    (ht : m.IsStart t) :
    Scanned m (s.makeBlockAt t) p q ∧ Makes s (s.makeBlockAt t) p t := by
  rw [CiMethodBlocks.makeBlockAt]
  cases hmap : s.bciToBlock t with
  | none =>
    have hp : p ≤ t := by
      by_contra hlt
      obtain ⟨j, hj⟩ := h.exists_contains t
      have := (h.behind t (by omega) j).mpr ⟨ht, hj⟩
      rw [hmap] at this
      cases this
    have hnot : ¬ s.IsBlockStart t := by
      rintro ⟨i, hi, hstart⟩
      have := (h.ahead t hp i).mpr ⟨hi, hstart⟩
      rw [hmap] at this
      cases this
    exact ⟨h.appendBlock hq ht hp hnot, makes_appendBlock hp⟩
  | some cb =>
    simp only
    by_cases hp : p ≤ t
    · obtain ⟨hcb, hstart⟩ := (h.ahead t hp cb).mp hmap
      rw [if_pos hstart]
      exact ⟨h, makes_refl ⟨cb, hcb, hstart⟩⟩
    · obtain ⟨-, hcontains⟩ := (h.behind t (by omega) cb).mp hmap
      split
      next hstart => exact ⟨h, makes_refl ⟨cb, hcontains.lt, hstart⟩⟩
      next hne =>
        exact ⟨h.splitBlockAt hv hcontains hne ht (by omega), makes_split h hcontains (by omega)⟩

/-! ## Limits and transfers of control -/

section SetBlock

variable {cur : Nat}

@[simp] theorem startBci_setLimitBci (l i : Nat) :
    ((s.setLimitBci cur l).blocks i).startBci = (s.blocks i).startBci := by
  by_cases hi : i = cur
  · subst hi
    simp [setLimitBci, setBlock]
  · simp [setLimitBci, setBlock, hi]

@[simp] theorem controlBci_setLimitBci (l i : Nat) :
    ((s.setLimitBci cur l).blocks i).controlBci = (s.blocks i).controlBci := by
  by_cases hi : i = cur
  · subst hi
    simp [setLimitBci, setBlock]
  · simp [setLimitBci, setBlock, hi]

theorem limitBci_setLimitBci (l i : Nat) :
    ((s.setLimitBci cur l).blocks i).limitBci = if i = cur then l else (s.blocks i).limitBci := by
  by_cases hi : i = cur
  · subst hi
    simp [setLimitBci, setBlock]
  · simp [setLimitBci, setBlock, hi]

@[simp] theorem startBci_setControlBci (c i : Nat) :
    ((s.setControlBci cur c).blocks i).startBci = (s.blocks i).startBci := by
  by_cases hi : i = cur
  · subst hi
    simp [setControlBci, setBlock]
  · simp [setControlBci, setBlock, hi]

@[simp] theorem limitBci_setControlBci (c i : Nat) :
    ((s.setControlBci cur c).blocks i).limitBci = (s.blocks i).limitBci := by
  by_cases hi : i = cur
  · subst hi
    simp [setControlBci, setBlock]
  · simp [setControlBci, setBlock, hi]

theorem controlBci_setControlBci (c i : Nat) :
    ((s.setControlBci cur c).blocks i).controlBci =
      if i = cur then some c else (s.blocks i).controlBci := by
  by_cases hi : i = cur
  · subst hi
    simp [setControlBci, setBlock]
  · simp [setControlBci, setBlock, hi]

/-- Two states have blocks with the same starts. -/
structure SameStarts (s s' : CiMethodBlocks) : Prop where
  numBlocks : s'.numBlocks = s.numBlocks
  startBci : ∀ i, (s'.blocks i).startBci = (s.blocks i).startBci

theorem SameStarts.isBlockStart {s' : CiMethodBlocks} (h : SameStarts s s') (bci : Nat) :
    s'.IsBlockStart bci ↔ s.IsBlockStart bci := by
  simp only [IsBlockStart, h.numBlocks, h.startBci]

theorem SameStarts.contains {s' : CiMethodBlocks} (h : SameStarts s s') (i bci : Nat) :
    s'.Contains i bci ↔ s.Contains i bci := by
  constructor
  · rintro ⟨hlt, hle, hlast⟩
    simp only [h.numBlocks, h.startBci] at hlt hle hlast
    exact ⟨hlt, hle, hlast⟩
  · rintro ⟨hlt, hle, hlast⟩
    constructor
    · rwa [h.numBlocks]
    · rwa [h.startBci]
    · simp only [h.numBlocks, h.startBci]
      exact hlast

theorem sameStarts_setLimitBci (l : Nat) : SameStarts s (s.setLimitBci cur l) :=
  ⟨rfl, startBci_setLimitBci l⟩

theorem sameStarts_setControlBci (c : Nat) : SameStarts s (s.setControlBci cur c) :=
  ⟨rfl, startBci_setControlBci c⟩

theorem sameStarts_bciToBlock (map : Nat → Option Nat) :
    SameStarts s { s with bciToBlock := map } := ⟨rfl, fun _ => rfl⟩

/-- The limit of the last block below the scan is free. -/
theorem Scanned.setLimitBci (h : Scanned m s p q) (l : Nat)
    (hlast : ∀ j < s.numBlocks, (s.blocks cur).startBci < (s.blocks j).startBci →
      p ≤ (s.blocks j).startBci) : Scanned m (s.setLimitBci cur l) p q := by
  have hsame : SameStarts s (s.setLimitBci cur l) := sameStarts_setLimitBci l
  constructor
  case zero => exact (hsame.isBlockStart 0).mpr h.zero
  case inj =>
    intro i hi j hj
    simp only [startBci_setLimitBci]
    exact h.inj i hi j hj
  case isStart =>
    intro i hi
    rw [startBci_setLimitBci]
    exact h.isStart i hi
  case ahead =>
    intro bci hbci i
    rw [startBci_setLimitBci]
    exact h.ahead bci hbci i
  case behind =>
    intro bci hbci i
    rw [hsame.contains]
    exact h.behind bci hbci i
  case limit =>
    intro i hi j hj
    rw [hsame.isBlockStart, limitBci_setLimitBci]
    simp only [startBci_setLimitBci]
    intro hlt hjp
    have hicur : i ≠ cur := by
      rintro rfl
      have := hlast j hj hlt
      omega
    rw [if_neg hicur]
    exact h.limit i hi j hj hlt hjp
  case control =>
    intro i hi c
    simp only [hsame.contains, controlBci_setLimitBci]
    exact h.control i hi c
  case ends =>
    intro a ha haq hcontrol hnext
    exact (hsame.isBlockStart _).mpr (h.ends a ha haq hcontrol hnext)

end SetBlock

/-! ## One instruction -/

section Step

variable {cur : Nat} {i : Instruction}

/-- No transfer of control was noted in the current block before. -/
theorem Scanned.eq_of_contains (h : Scanned m s i.nextBci i.bci) (hv : m.Confined)
    (hi : i ∈ m.instructions) (hcontains : s.Contains cur i.bci) {a : Instruction}
    (ha : a ∈ m.instructions) (hlt : a.bci < i.nextBci) (hcontrol : a.code.control ≠ .fallThrough)
    (hle : (s.blocks cur).startBci ≤ a.bci) : a = i := by
  have hbounds := hv.contiguous.bounds ha
  rcases Nat.lt_trichotomy a.bci i.bci with hai | hai | hai
  · have hnext := hv.contiguous.next_le ha hi hai
    have hi' := hv.contiguous.bounds hi
    obtain ⟨j, hj, hstart⟩ := h.ends a ha hai hcontrol (by omega)
    have := hcontains.last j hj (by omega)
    omega
  · exact hv.contiguous.eq_of_bci ha hi hai
  · have := hv.contiguous.next_le hi ha hai
    omega

theorem Scanned.setControlBci (h : Scanned m s i.nextBci i.bci) (hv : m.Confined)
    (hi : i ∈ m.instructions) (hcontains : s.Contains cur i.bci)
    (hcontrol : i.code.control ≠ .fallThrough) :
    Scanned m (s.setControlBci cur i.bci) i.nextBci i.nextBci := by
  have hsame : SameStarts s (s.setControlBci cur i.bci) := sameStarts_setControlBci i.bci
  have hlt := (hv.contiguous.bounds hi).2.1
  constructor
  case zero => exact (hsame.isBlockStart 0).mpr h.zero
  case inj =>
    intro i hi j hj
    simp only [startBci_setControlBci]
    exact h.inj i hi j hj
  case isStart =>
    intro i hi
    rw [startBci_setControlBci]
    exact h.isStart i hi
  case ahead =>
    intro bci hbci i
    rw [startBci_setControlBci]
    exact h.ahead bci hbci i
  case behind =>
    intro bci hbci i
    rw [hsame.contains]
    exact h.behind bci hbci i
  case limit =>
    intro i hi j hj
    rw [hsame.isBlockStart, limitBci_setControlBci]
    simp only [startBci_setControlBci]
    exact h.limit i hi j hj
  case control =>
    intro j hj c
    simp only [hsame.contains, controlBci_setControlBci]
    split
    next hjcur =>
      subst hjcur
      constructor
      · intro heq
        obtain rfl := Option.some.inj heq
        exact ⟨i, hi, rfl, hlt, hcontrol, hcontains⟩
      · rintro ⟨a, ha, rfl, halt, hacontrol, hac⟩
        rw [h.eq_of_contains hv hi hcontains ha halt hacontrol hac.le]
    next hjcur =>
      rw [h.control j hj c]
      constructor
      · rintro ⟨a, ha, hac, hc, hrest⟩
        exact ⟨a, ha, hac, by omega, hrest⟩
      · rintro ⟨a, ha, rfl, halt, hacontrol, hac⟩
        refine ⟨a, ha, rfl, ?_, hacontrol, hac⟩
        by_contra hge
        have hai : a.bci = i.bci := by
          rcases Nat.lt_trichotomy a.bci i.bci with h' | h' | h'
          · exact absurd h' hge
          · exact h'
          · have := hv.contiguous.next_le hi ha h'
            omega
        rw [hai] at hac
        exact hjcur (h.contains_unique hac hcontains)
  case ends =>
    intro a ha haq hacontrol hnext
    refine (hsame.isBlockStart _).mpr (h.ends a ha ?_ hacontrol hnext)
    by_contra hge
    rcases eq_or_lt_of_le (not_lt.mp hge) with heq | hia
    · rw [hv.contiguous.eq_of_bci ha hi heq.symm] at hnext
      exact lt_irrefl _ hnext
    · have := hv.contiguous.next_le hi ha hia
      omega

/-- Nothing is to be noted for an instruction that does not transfer control. -/
theorem Scanned.fallThrough (h : Scanned m s i.nextBci i.bci) (hv : m.Confined)
    (hi : i ∈ m.instructions) (hcontrol : i.code.control = .fallThrough) :
    Scanned m s i.nextBci i.nextBci := by
  have hlt := (hv.contiguous.bounds hi).2.1
  have hbelow : ∀ a ∈ m.instructions, a.code.control ≠ .fallThrough →
      (a.bci < i.nextBci ↔ a.bci < i.bci) := by
    intro a ha hacontrol
    refine ⟨fun halt => ?_, fun halt => by omega⟩
    rcases Nat.lt_trichotomy a.bci i.bci with h' | h' | h'
    · exact h'
    · rw [hv.contiguous.eq_of_bci ha hi h'] at hacontrol
      exact absurd hcontrol hacontrol
    · have := hv.contiguous.next_le hi ha h'
      omega
  refine { h with control := fun j hj c => ?_, ends := fun a ha haq hacontrol => ?_ }
  · rw [h.control j hj c]
    refine exists_congr fun a => and_congr_right fun ha => and_congr_right fun hac => ?_
    subst hac
    constructor
    · rintro ⟨hc, hacontrol, hrest⟩
      exact ⟨(hbelow a ha hacontrol).mpr hc, hacontrol, hrest⟩
    · rintro ⟨hc, hacontrol, hrest⟩
      exact ⟨(hbelow a ha hacontrol).mp hc, hacontrol, hrest⟩
  · exact h.ends a ha ((hbelow a ha hacontrol).mp haq) hacontrol

/-- The last block that starts before the scan. -/
structure Current (s : CiMethodBlocks) (cur p : Nat) : Prop where
  lt : cur < s.numBlocks
  le : (s.blocks cur).startBci ≤ p
  lt_of_pos : 0 < p → (s.blocks cur).startBci < p
  last : ∀ j < s.numBlocks, (s.blocks j).startBci < p → (s.blocks j).startBci ≤
    (s.blocks cur).startBci

/-- The scan moves over an instruction, whose block is known. -/
theorem Scanned.advance (h : Scanned m s i.bci i.bci) (hv : m.Confined)
    (hi : i ∈ m.instructions) (hcontains : s.Contains cur i.bci)
    (hlimit : ∀ j < s.numBlocks, (s.blocks j).startBci < i.bci → s.IsBlockStart i.bci →
      s.IsBlockStart (s.blocks j).limitBci ∧ (s.blocks j).startBci < (s.blocks j).limitBci ∧
        (s.blocks j).limitBci ≤ i.bci)
    (hends : ∀ a ∈ m.instructions, a.code.control ≠ .fallThrough → a.nextBci = i.bci →
      s.IsBlockStart i.bci) :
    Scanned m { s with bciToBlock := Function.update s.bciToBlock i.bci (some cur) }
      i.nextBci i.bci := by
  have hsame : SameStarts s { s with
      bciToBlock := Function.update s.bciToBlock i.bci (some cur) } := sameStarts_bciToBlock _
  have hlt := (hv.contiguous.bounds hi).2.1
  -- No instruction starts in the middle of this one.
  have hstarts : ∀ bci, m.IsStart bci → bci < i.nextBci → bci ≤ i.bci := by
    rintro bci ⟨a, ha, rfl⟩ hbci
    by_contra hgt
    have := hv.contiguous.next_le hi ha (by omega)
    omega
  constructor
  case zero => exact h.zero
  case inj => exact h.inj
  case isStart => exact h.isStart
  case ahead =>
    intro bci hbci j
    change Function.update _ _ _ bci = _ ↔ _
    rw [Function.update_of_ne (by omega)]
    exact h.ahead bci (by omega) j
  case behind =>
    intro bci hbci j
    rw [hsame.contains]
    change Function.update _ _ _ bci = _ ↔ _
    rcases Nat.lt_trichotomy bci i.bci with hb | rfl | hb
    · rw [Function.update_of_ne hb.ne]
      exact h.behind bci hb j
    · rw [Function.update_self]
      constructor
      · intro heq
        obtain rfl := Option.some.inj heq
        exact ⟨⟨i, hi, rfl⟩, hcontains⟩
      · rintro ⟨-, hj⟩
        exact congrArg some (h.contains_unique hcontains hj)
    · rw [Function.update_of_ne hb.ne', h.ahead bci hb.le]
      constructor
      · rintro ⟨hj, rfl⟩
        have := hstarts _ (h.isStart j hj) hbci
        omega
      · rintro ⟨hstart, -⟩
        have := hstarts _ hstart hbci
        omega
  case limit =>
    intro a ha b hb hab hbp
    rw [hsame.isBlockStart]
    rcases eq_or_lt_of_le (hstarts _ (h.isStart b hb) hbp) with heq | hbi
    · change (s.blocks a).startBci < (s.blocks b).startBci at hab
      have hbound := hlimit a ha (by omega) ⟨b, hb, heq⟩
      rw [← heq] at hbound
      exact hbound
    · exact h.limit a ha b hb hab hbi
  case control =>
    intro j hj c
    simp only [hsame.contains]
    exact h.control j hj c
  case ends =>
    intro a ha haq hacontrol hnext
    rw [hsame.isBlockStart]
    rcases eq_or_lt_of_le (hv.contiguous.next_le ha hi haq) with heq | hai
    · rw [heq]
      exact hends a ha hacontrol heq
    · exact h.ends a ha haq hacontrol hai

/-- Moving on to the block of an instruction. -/
theorem Scanned.enterBlock (h : Scanned m s i.bci i.bci) (hv : m.Confined)
    (hi : i ∈ m.instructions) (hcur : s.Current cur i.bci)
    (hends : ∀ a ∈ m.instructions, a.code.control ≠ .fallThrough → a.nextBci = i.bci →
      s.IsBlockStart i.bci) :
    Scanned m (s.enterBlock cur i.bci).1 i.nextBci i.bci ∧
      (s.enterBlock cur i.bci).1.Contains (s.enterBlock cur i.bci).2 i.bci ∧
      SameStarts s (s.enterBlock cur i.bci).1 := by
  rw [CiMethodBlocks.enterBlock]
  have hnone : ¬ s.IsBlockStart i.bci → s.Contains cur i.bci := by
    refine fun hnot => ⟨hcur.lt, hcur.le, fun j hj hle => hcur.last j hj (lt_of_le_of_ne hle ?_)⟩
    exact fun heq => hnot ⟨j, hj, heq⟩
  cases hmap : s.bciToBlock i.bci with
  | none =>
    have hnot : ¬ s.IsBlockStart i.bci := by
      rintro ⟨j, hj, hstart⟩
      have := (h.ahead i.bci le_rfl j).mpr ⟨hj, hstart⟩
      rw [hmap] at this
      cases this
    have hcontains := hnone hnot
    exact ⟨h.advance hv hi hcontains (fun j _ _ hstart => absurd hstart hnot) hends,
      ((sameStarts_bciToBlock _).contains cur i.bci).mpr hcontains, sameStarts_bciToBlock _⟩
  | some new =>
    obtain ⟨hnew, hstart⟩ := (h.ahead i.bci le_rfl new).mp hmap
    have hcontains : s.Contains new i.bci := ⟨hnew, hstart.le, fun j _ hle => by omega⟩
    simp only
    split
    next hnewcur =>
      subst hnewcur
      -- The current block starts before the scan, unless nothing was scanned yet.
      have hzero : i.bci = 0 := by
        by_contra hne
        have := hcur.lt_of_pos (by omega)
        omega
      exact ⟨h.advance hv hi hcontains (fun j _ hlt => absurd hlt (by omega)) hends,
        ((sameStarts_bciToBlock _).contains new i.bci).mpr hcontains, sameStarts_bciToBlock _⟩
    next hne =>
      have hsame : SameStarts s (s.setLimitBci cur i.bci) := sameStarts_setLimitBci i.bci
      have hlt : (s.blocks cur).startBci < i.bci := by
        refine lt_of_le_of_ne hcur.le fun heq => hne ?_
        exact h.inj new hnew cur hcur.lt (hstart.trans heq.symm)
      have hset : Scanned m (s.setLimitBci cur i.bci) i.bci i.bci := by
        refine h.setLimitBci i.bci fun j hj hgt => ?_
        by_contra hji
        have := hcur.last j hj (by omega)
        omega
      have hmap' : Function.update (s.setLimitBci cur i.bci).bciToBlock i.bci (some new) =
          (s.setLimitBci cur i.bci).bciToBlock := by
        rw [Function.update_eq_self_iff]
        exact hmap.symm
      have hcontains' := (hsame.contains new i.bci).mpr hcontains
      have hadvance := hset.advance hv hi hcontains' (fun j hj hji _ => ?_)
        (fun a ha hcontrol hnext => (hsame.isBlockStart _).mpr (hends a ha hcontrol hnext))
      · rw [hmap'] at hadvance
        exact ⟨hadvance, hcontains', hsame⟩
      · rw [hsame.isBlockStart, limitBci_setLimitBci, startBci_setLimitBci]
        rw [startBci_setLimitBci] at hji
        split
        next hjcur =>
          subst hjcur
          exact ⟨⟨new, hnew, hstart⟩, hlt, le_rfl⟩
        next hjcur =>
          have hle := hcur.last j hj hji
          have hne' : (s.blocks j).startBci ≠ (s.blocks cur).startBci := fun heq =>
            hjcur (h.inj j hj cur hcur.lt heq)
          obtain ⟨h1, h2, h3⟩ := h.limit j hj cur hcur.lt (by omega) hlt
          exact ⟨h1, h2, by omega⟩

/-- The instruction has been scanned, and it is in the current block. -/
structure Stage (m : CiMethod) (i : Instruction) (cur : Nat) (s : CiMethodBlocks) : Prop where
  scanned : Scanned m s i.nextBci i.nextBci
  contains : s.Contains cur i.bci

/-- Blocks were made at the given bcis. -/
structure Adds (m : CiMethod) (i : Instruction) (cur : Nat) (s s' : CiMethodBlocks)
    (bcis : List Nat) : Prop where
  stage : Stage m i cur s'
  old : ∀ bci, s.IsBlockStart bci → s'.IsBlockStart bci
  new : ∀ bci ∈ bcis, s'.IsBlockStart bci

theorem Adds.trans {s' s'' : CiMethodBlocks} {bcis bcis' : List Nat}
    (h : Adds m i cur s s' bcis) (h' : Adds m i cur s' s'' bcis') :
    Adds m i cur s s'' (bcis ++ bcis') where
  stage := h'.stage
  old bci hbci := h'.old bci (h.old bci hbci)
  new bci hbci := by
    rcases List.mem_append.mp hbci with hbci | hbci
    · exact h'.old bci (h.new bci hbci)
    · exact h'.new bci hbci

section Adds

variable (hv : m.Confined) (hi : i ∈ m.instructions)

include hv hi

theorem Stage.makeBlockAt (h : Stage m i cur s) {t : Nat} (ht : m.IsStart t) :
    Adds m i cur s (s.makeBlockAt t) [t] := by
  obtain ⟨hscanned, hmakes⟩ := h.scanned.makeBlockAt hv le_rfl ht
  refine ⟨⟨hscanned, hmakes.contains cur i.bci h.contains (hv.contiguous.bounds hi).2.1 ?_⟩,
    fun bci hbci => (hmakes.starts bci).mpr (Or.inl hbci), fun bci hbci => ?_⟩
  · obtain ⟨a, ha, rfl⟩ := ht
    rcases le_or_gt a.bci i.bci with hle | hgt
    · exact Or.inl hle
    · exact Or.inr (hv.contiguous.next_le hi ha hgt)
  · exact (hmakes.starts bci).mpr (Or.inr (List.mem_singleton.mp hbci))

theorem Stage.makeBlocksAt (h : Stage m i cur s) {bcis : List Nat}
    (ht : ∀ t ∈ bcis, m.IsStart t) : Adds m i cur s (s.makeBlocksAt bcis) bcis := by
  induction bcis generalizing s with
  | nil => exact ⟨h, fun _ hbci => hbci, fun _ hbci => by cases hbci⟩
  | cons t bcis ih =>
    have hfirst := h.makeBlockAt hv hi (ht t (by simp))
    exact hfirst.trans (ih hfirst.stage fun t' ht' => ht t' (List.mem_cons_of_mem _ ht'))

theorem Stage.makeNextBlock (h : Stage m i cur s) :
    Adds m i cur s (s.makeNextBlock m.codeSize i.nextBci)
      (if i.nextBci < m.codeSize then [i.nextBci] else []) := by
  rw [CiMethodBlocks.makeNextBlock]
  split
  next hlt =>
    obtain ⟨a, ha, hbci⟩ := hv.contiguous.next_start hi hlt
    exact h.makeBlockAt hv hi ⟨a, ha, hbci⟩
  next => exact ⟨h, fun _ hbci => hbci, fun _ hbci => by cases hbci⟩

theorem Stage.makeBlockBehind (h : Stage m i cur s) (hresumes : i.code.control.resumes) :
    Adds m i cur s (s.makeBlockAt i.nextBci) [i.nextBci] := by
  obtain ⟨a, ha, hbci⟩ := hv.contiguous.next_start hi (hv.resumes i hi hresumes)
  exact h.makeBlockAt hv hi ⟨a, ha, hbci⟩

/-- The blocks for an instruction: at its targets, and behind it if it transfers control. -/
theorem Scanned.makeBlocksFor (h : Scanned m s i.nextBci i.bci) (hcontains : s.Contains cur i.bci) :
    Stage m i cur (s.makeBlocksFor m.codeSize cur i) ∧
      (∀ bci, s.IsBlockStart bci → (s.makeBlocksFor m.codeSize cur i).IsBlockStart bci) ∧
      (i.code.control ≠ .fallThrough → i.nextBci < m.codeSize →
        (s.makeBlocksFor m.codeSize cur i).IsBlockStart i.nextBci) ∧
      ∀ t ∈ i.code.control.targets, (s.makeBlocksFor m.codeSize cur i).IsBlockStart t := by
  have htargets := hv.targets i hi
  have hstage : i.code.control ≠ .fallThrough → Stage m i cur (s.setControlBci cur i.bci) :=
    fun hcontrol => ⟨h.setControlBci hv hi hcontains hcontrol,
      ((sameStarts_setControlBci i.bci).contains cur i.bci).mpr hcontains⟩
  have hold : ∀ bci, s.IsBlockStart bci → (s.setControlBci cur i.bci).IsBlockStart bci :=
    fun bci hbci => ((sameStarts_setControlBci i.bci).isBlockStart bci).mpr hbci
  -- What the blocks of a transfer of control have in common.
  have hadds : ∀ {s' bcis}, Adds m i cur (s.setControlBci cur i.bci) s' bcis →
      (i.nextBci < m.codeSize → i.nextBci ∈ bcis) → (∀ t ∈ i.code.control.targets, t ∈ bcis) →
      Stage m i cur s' ∧ (∀ bci, s.IsBlockStart bci → s'.IsBlockStart bci) ∧
        (i.code.control ≠ .fallThrough → i.nextBci < m.codeSize → s'.IsBlockStart i.nextBci) ∧
        ∀ t ∈ i.code.control.targets, s'.IsBlockStart t := by
    intro s' bcis hadds hnext htargets
    exact ⟨hadds.stage, fun bci hbci => hadds.old bci (hold bci hbci),
      fun _ hlt => hadds.new _ (hnext hlt), fun t ht => hadds.new t (htargets t ht)⟩
  have hbehind : ∀ {s'}, Stage m i cur s' → i.code.control.resumes = true →
      Adds m i cur s' (s'.makeBlockAt i.nextBci) [i.nextBci] := fun hs => hs.makeBlockBehind hv hi
  rw [CiMethodBlocks.makeBlocksFor]
  cases hcontrol : i.code.control with
  | fallThrough =>
    exact ⟨⟨h.fallThrough hv hi hcontrol, hcontains⟩, fun _ hbci => hbci,
      fun hne => absurd rfl hne, fun t ht => by cases ht⟩
  | branch dest =>
    rw [hcontrol] at htargets hstage hadds hbehind
    have h₁ := hbehind (hstage (by simp)) rfl
    have h₂ := h₁.stage.makeBlockAt hv hi (htargets dest (by simp [CiControl.targets]))
    exact hadds (h₁.trans h₂) (by simp) (by simp [CiControl.targets])
  | goto dest =>
    rw [hcontrol] at htargets hstage hadds
    have h₁ := (hstage (by simp)).makeNextBlock hv hi
    have h₂ := h₁.stage.makeBlockAt hv hi (htargets dest (by simp [CiControl.targets]))
    exact hadds (h₁.trans h₂) (fun hlt => by simp [hlt]) (by simp [CiControl.targets])
  | switch default dests =>
    rw [hcontrol] at htargets hstage hadds
    have hdests : ∀ t ∈ dests, m.IsStart t := fun t ht =>
      htargets t (by simp [CiControl.targets, ht])
    have h₁ := (hstage (by simp)).makeBlocksAt hv hi hdests
    have h₂ := h₁.stage.makeBlockAt hv hi (htargets default (by simp [CiControl.targets]))
    have h₃ := h₂.stage.makeNextBlock hv hi
    exact hadds ((h₁.trans h₂).trans h₃) (fun hlt => by simp [hlt])
      (by simp +contextual [CiControl.targets])
  | jsr dest =>
    rw [hcontrol] at htargets hstage hadds hbehind
    have h₁ := hbehind (hstage (by simp)) rfl
    have h₂ := h₁.stage.makeBlockAt hv hi (htargets dest (by simp [CiControl.targets]))
    exact hadds (h₁.trans h₂) (by simp) (by simp [CiControl.targets])
  | ret =>
    rw [hcontrol] at hstage hadds
    exact hadds ((hstage (by simp)).makeNextBlock hv hi) (fun hlt => by simp [hlt])
      (by simp [CiControl.targets])
  | exit =>
    rw [hcontrol] at hstage hadds
    exact hadds ((hstage (by simp)).makeNextBlock hv hi) (fun hlt => by simp [hlt])
      (by simp [CiControl.targets])

end Adds

/-- The instructions below `p` have been analyzed. -/
structure Analyzed (m : CiMethod) (p : Nat) (s : CiMethodBlocks) (cur : Nat) : Prop where
  scanned : Scanned m s p p
  current : s.Current cur p
  ends : ∀ a ∈ m.instructions, a.bci < p → a.code.control ≠ .fallThrough →
    a.nextBci < m.codeSize → s.IsBlockStart a.nextBci
  targets : ∀ a ∈ m.instructions, a.bci < p → ∀ t ∈ a.code.control.targets, s.IsBlockStart t

theorem Stage.current (h : Stage m i cur s) (hv : m.Confined) (hi : i ∈ m.instructions) :
    s.Current cur i.nextBci := by
  have hlt := (hv.contiguous.bounds hi).2.1
  have hle := h.contains.le
  refine ⟨h.contains.lt, by omega, fun _ => by omega, fun j hj hjlt => ?_⟩
  refine h.contains.last j hj ?_
  by_contra hgt
  obtain ⟨a, ha, hstart⟩ := h.scanned.isStart j hj
  have := hv.contiguous.next_le hi ha (by omega)
  omega

theorem Analyzed.analyze (h : Analyzed m i.bci s cur) (hv : m.Confined)
    (hi : i ∈ m.instructions) :
    Analyzed m i.nextBci (analyze m.codeSize (s, cur) i).1 (analyze m.codeSize (s, cur) i).2 ∧
      ∀ bci, s.IsBlockStart bci → (analyze m.codeSize (s, cur) i).1.IsBlockStart bci := by
  have hbounds := hv.contiguous.bounds hi
  obtain ⟨hscanned, hcontains, hsame⟩ := h.scanned.enterBlock hv hi h.current
    fun a ha hcontrol hnext => by
      have ha' := hv.contiguous.bounds ha
      rw [← hnext]
      exact h.ends a ha (by omega) hcontrol (by omega)
  obtain ⟨hstage, hold, hends, htargets⟩ := hscanned.makeBlocksFor hv hi hcontains
  have hkept : ∀ bci, s.IsBlockStart bci →
      (CiMethodBlocks.analyze m.codeSize (s, cur) i).1.IsBlockStart bci :=
    fun bci hbci => hold bci ((hsame.isBlockStart bci).mpr hbci)
  -- An instruction below the new position is this one or one before it.
  have hcases : ∀ a ∈ m.instructions, a.bci < i.nextBci → a = i ∨ a.bci < i.bci := by
    intro a ha hlt
    rcases Nat.lt_trichotomy a.bci i.bci with h' | h' | h'
    · exact Or.inr h'
    · exact Or.inl (hv.contiguous.eq_of_bci ha hi h')
    · have := hv.contiguous.next_le hi ha h'
      omega
  refine ⟨⟨hstage.scanned, hstage.current hv hi, ?_, ?_⟩, hkept⟩
  · intro a ha hlt hcontrol hnext
    rcases hcases a ha hlt with rfl | hbefore
    · exact hends hcontrol hnext
    · exact hkept _ (h.ends a ha hbefore hcontrol hnext)
  · intro a ha hlt t ht
    rcases hcases a ha hlt with rfl | hbefore
    · exact htargets t ht
    · exact hkept t (h.targets a ha hbefore t ht)

/-- The analysis of the rest of the instructions. -/
theorem Analyzed.foldl (hv : m.Confined) {l : List Instruction} {state : CiMethodBlocks × Nat}
    (hl : ∀ i ∈ l, i ∈ m.instructions) {stop : Nat} (hcontiguous : Contiguous p l stop)
    (h : Analyzed m p state.1 state.2) :
    Analyzed m stop (l.foldl (CiMethodBlocks.analyze m.codeSize) state).1
        (l.foldl (CiMethodBlocks.analyze m.codeSize) state).2 ∧
      ∀ bci, state.1.IsBlockStart bci →
        (l.foldl (CiMethodBlocks.analyze m.codeSize) state).1.IsBlockStart bci := by
  induction l generalizing p state with
  | nil =>
    obtain rfl := hcontiguous
    exact ⟨h, fun _ hbci => hbci⟩
  | cons i l ih =>
    obtain ⟨rfl, -, hrest⟩ := hcontiguous
    obtain ⟨hnext, hkept⟩ := h.analyze hv (hl i (by simp))
    obtain ⟨hend, hkept'⟩ := ih (fun j hj => hl j (List.mem_cons_of_mem _ hj)) hrest hnext
    exact ⟨hend, fun bci hbci => hkept' bci (hkept bci hbci)⟩

end Step

/-! ## The handlers and the whole method -/

/-- The blocks for a handler. -/
structure HandlerBlocks (m : CiMethod) (s : CiMethodBlocks) (h : CiExceptionHandler) : Prop where
  handlerBci : s.IsBlockStart h.handlerBci
  start : s.IsBlockStart h.start
  limit : h.limit < m.codeSize → s.IsBlockStart h.limit

theorem HandlerBlocks.mono {h : CiExceptionHandler} {s' : CiMethodBlocks}
    (hs : HandlerBlocks m s h) (hkept : ∀ bci, s.IsBlockStart bci → s'.IsBlockStart bci) :
    HandlerBlocks m s' h :=
  ⟨hkept _ hs.handlerBci, hkept _ hs.start, fun hlt => hkept _ (hs.limit hlt)⟩

theorem Scanned.makeHandlerBlocks (h : Scanned m s 0 0) (hv : m.Confined)
    {handler : CiExceptionHandler} (hhandler : handler ∈ m.handlers) :
    Scanned m (s.makeHandlerBlocks m.codeSize handler) 0 0 ∧
      HandlerBlocks m (s.makeHandlerBlocks m.codeSize handler) handler ∧
      ∀ bci, s.IsBlockStart bci → (s.makeHandlerBlocks m.codeSize handler).IsBlockStart bci := by
  obtain ⟨h₁, hm₁⟩ := h.makeBlockAt hv le_rfl (hv.handlerBci handler hhandler)
  obtain ⟨h₂, hm₂⟩ := h₁.makeBlockAt hv le_rfl (hv.handlerStart handler hhandler)
  have hkept : ∀ bci, s.IsBlockStart bci ∨ bci = handler.handlerBci ∨ bci = handler.start →
      ((s.makeBlockAt handler.handlerBci).makeBlockAt handler.start).IsBlockStart bci := by
    intro bci hbci
    rw [hm₂.starts, hm₁.starts]
    tauto
  rw [CiMethodBlocks.makeHandlerBlocks, makeNextBlock]
  split
  next hlt =>
    have hstart := (hv.handlerLimit handler hhandler).resolve_right (by omega)
    obtain ⟨h₃, hm₃⟩ := h₂.makeBlockAt hv le_rfl hstart
    have hkept' : ∀ bci, s.IsBlockStart bci ∨ bci = handler.handlerBci ∨ bci = handler.start →
        (((s.makeBlockAt handler.handlerBci).makeBlockAt handler.start).makeBlockAt
          handler.limit).IsBlockStart bci :=
      fun bci hbci => (hm₃.starts bci).mpr (Or.inl (hkept bci hbci))
    exact ⟨h₃, ⟨hkept' _ (by simp), hkept' _ (by simp), fun _ => (hm₃.starts _).mpr (Or.inr rfl)⟩,
      fun bci hbci => hkept' bci (Or.inl hbci)⟩
  next hge =>
    exact ⟨h₂, ⟨hkept _ (by simp), hkept _ (by simp), fun hlt => absurd hlt hge⟩,
      fun bci hbci => hkept bci (Or.inl hbci)⟩

theorem Scanned.foldl_makeHandlerBlocks (h : Scanned m s 0 0) (hv : m.Confined)
    {handlers : List CiExceptionHandler} (hhandlers : ∀ h ∈ handlers, h ∈ m.handlers) :
    Scanned m (handlers.foldl (CiMethodBlocks.makeHandlerBlocks m.codeSize) s) 0 0 ∧
      (∀ h ∈ handlers, HandlerBlocks m
        (handlers.foldl (CiMethodBlocks.makeHandlerBlocks m.codeSize) s) h) ∧
      ∀ bci, s.IsBlockStart bci →
        (handlers.foldl (CiMethodBlocks.makeHandlerBlocks m.codeSize) s).IsBlockStart bci := by
  induction handlers generalizing s with
  | nil => exact ⟨h, fun _ hh => absurd hh List.not_mem_nil, fun _ hbci => hbci⟩
  | cons handler handlers ih =>
    obtain ⟨h₁, hblocks, hkept⟩ := h.makeHandlerBlocks hv (hhandlers handler (by simp))
    obtain ⟨h₂, hblocks', hkept'⟩ := ih h₁ fun h hh => hhandlers h (List.mem_cons_of_mem _ hh)
    refine ⟨h₂, fun h hh => ?_, fun bci hbci => hkept' bci (hkept bci hbci)⟩
    rcases List.mem_cons.mp hh with rfl | hh
    · exact hblocks.mono hkept'
    · exact hblocks' h hh

/-- Blocks that partition the method, each up to a transfer of control or a place where
control can come to. -/
structure Partition (m : CiMethod) (s : CiMethodBlocks) : Prop where
  zero : s.IsBlockStart 0
  inj : ∀ i < s.numBlocks, ∀ j < s.numBlocks,
    (s.blocks i).startBci = (s.blocks j).startBci → i = j
  isStart : ∀ i < s.numBlocks, m.IsStart (s.blocks i).startBci
  lt_limit : ∀ i < s.numBlocks, (s.blocks i).startBci < (s.blocks i).limitBci
  limit_le : ∀ i < s.numBlocks, ∀ j < s.numBlocks,
    (s.blocks i).startBci < (s.blocks j).startBci → (s.blocks i).limitBci ≤ (s.blocks j).startBci
  limit : ∀ i < s.numBlocks, (s.blocks i).limitBci = m.codeSize ∨
    s.IsBlockStart (s.blocks i).limitBci
  control : ∀ i < s.numBlocks, ∀ c, (s.blocks i).controlBci = some c ↔
    ∃ a ∈ m.instructions, a.bci = c ∧ a.code.control ≠ .fallThrough ∧
      (s.blocks i).startBci ≤ c ∧ c < (s.blocks i).limitBci
  ends : ∀ a ∈ m.instructions, a.code.control ≠ .fallThrough → a.nextBci < m.codeSize →
    s.IsBlockStart a.nextBci
  targets : ∀ a ∈ m.instructions, ∀ t ∈ a.code.control.targets, s.IsBlockStart t
  handlers : ∀ h ∈ m.handlers, HandlerBlocks m s h

/-- The blocks once the limit of the last one is set. -/
theorem Analyzed.partition {cur : Nat} (h : Analyzed m m.codeSize s cur) (hv : m.Confined)
    (hhandlers : ∀ h ∈ m.handlers, HandlerBlocks m s h) :
    Partition m (s.setLimitBci cur m.codeSize) := by
  have hsame : SameStarts s (s.setLimitBci cur m.codeSize) := sameStarts_setLimitBci _
  have hcur := h.current
  have hcurlt := hcur.lt_of_pos hv.nonempty
  have hstartlt : ∀ i < s.numBlocks, (s.blocks i).startBci < m.codeSize := by
    intro i hi
    obtain ⟨a, ha, hstart⟩ := h.scanned.isStart i hi
    have := hv.contiguous.bounds ha
    omega
  -- The limits of all the blocks but the last one were set by the scan.
  have hlimit : ∀ i < s.numBlocks, i ≠ cur → s.IsBlockStart (s.blocks i).limitBci ∧
      (s.blocks i).startBci < (s.blocks i).limitBci := by
    intro i hi hne
    have hle := hcur.last i hi (hstartlt i hi)
    have hne' : (s.blocks i).startBci ≠ (s.blocks cur).startBci := fun heq =>
      hne (h.scanned.inj i hi cur hcur.lt heq)
    obtain ⟨h1, h2, -⟩ := h.scanned.limit i hi cur hcur.lt (by omega) hcurlt
    exact ⟨h1, h2⟩
  have hlimit_le : ∀ i < s.numBlocks, ∀ j < s.numBlocks,
      (s.blocks i).startBci < (s.blocks j).startBci →
      ((s.setLimitBci cur m.codeSize).blocks i).limitBci ≤ (s.blocks j).startBci := by
    intro i hi j hj hlt
    have hicur : i ≠ cur := by
      rintro rfl
      have := hcur.last j hj (hstartlt j hj)
      omega
    rw [limitBci_setLimitBci, if_neg hicur]
    exact (h.scanned.limit i hi j hj hlt (hstartlt j hj)).2.2
  have hcontains : ∀ i < s.numBlocks, ∀ c < m.codeSize, s.Contains i c ↔
      (s.blocks i).startBci ≤ c ∧ c < ((s.setLimitBci cur m.codeSize).blocks i).limitBci := by
    intro i hi c hc
    constructor
    · rintro ⟨-, hle, hlast⟩
      refine ⟨hle, ?_⟩
      rw [limitBci_setLimitBci]
      split
      next => exact hc
      next hne =>
        obtain ⟨⟨l, hl, hlstart⟩, hpos⟩ := hlimit i hi hne
        by_contra hge
        have := hlast l hl (by omega)
        omega
    · rintro ⟨hle, hlt⟩
      refine ⟨hi, hle, fun j hj hjle => ?_⟩
      by_contra hgt
      have := hlimit_le i hi j hj (by omega)
      omega
  constructor
  case zero => exact (hsame.isBlockStart 0).mpr h.scanned.zero
  case inj =>
    intro i hi j hj
    simp only [startBci_setLimitBci]
    exact h.scanned.inj i hi j hj
  case isStart =>
    intro i hi
    rw [startBci_setLimitBci]
    exact h.scanned.isStart i hi
  case lt_limit =>
    intro i hi
    rw [startBci_setLimitBci, limitBci_setLimitBci]
    split
    next => exact hstartlt i hi
    next hne => exact (hlimit i hi hne).2
  case limit_le =>
    intro i hi j hj
    simp only [startBci_setLimitBci]
    exact hlimit_le i hi j hj
  case limit =>
    intro i hi
    rw [hsame.isBlockStart, limitBci_setLimitBci]
    split
    next => exact Or.inl rfl
    next hne => exact Or.inr (hlimit i hi hne).1
  case control =>
    intro i hi c
    rw [controlBci_setLimitBci, startBci_setLimitBci, h.scanned.control i hi c]
    refine exists_congr fun a => and_congr_right fun ha => and_congr_right fun hac => ?_
    subst hac
    have hlt : a.bci < m.codeSize := by
      have := hv.contiguous.bounds ha
      omega
    rw [hcontains i hi a.bci hlt, and_iff_right hlt]
  case ends =>
    intro a ha hcontrol hnext
    have := hv.contiguous.bounds ha
    exact (hsame.isBlockStart _).mpr (h.ends a ha (by omega) hcontrol hnext)
  case targets =>
    intro a ha t ht
    have := hv.contiguous.bounds ha
    exact (hsame.isBlockStart _).mpr (h.targets a ha (by omega) t ht)
  case handlers =>
    exact fun handler hh => (hhandlers handler hh).mono fun bci hbci =>
      (hsame.isBlockStart bci).mpr hbci

/-- The one block that there is before the scan. -/
theorem scanned_initial (hv : m.Confined) :
    Scanned m ⟨fun _ => ⟨0, 0, none⟩, 1, Function.update (fun _ => none) 0 (some 0)⟩ 0 0 := by
  have hzero : m.IsStart 0 := by
    have hcontiguous := hv.contiguous
    cases hl : m.instructions with
    | nil =>
      rw [hl] at hcontiguous
      exact absurd hcontiguous hv.nonempty.ne
    | cons i l =>
      rw [hl] at hcontiguous
      exact ⟨i, by simp [hl], hcontiguous.1⟩
  constructor
  case zero => exact ⟨0, Nat.one_pos, rfl⟩
  case inj =>
    intro i hi j hj _
    change i < 1 at hi
    change j < 1 at hj
    omega
  case isStart => exact fun i _ => hzero
  case ahead =>
    intro bci _ i
    change Function.update (fun _ => none) 0 (some 0) bci = some i ↔ i < 1 ∧ 0 = bci
    by_cases hb : bci = 0
    · subst hb
      rw [Function.update_self, Option.some.injEq]
      omega
    · rw [Function.update_of_ne hb]
      simp [Ne.symm hb]
  case behind => exact fun bci hbci => absurd hbci (Nat.not_lt_zero bci)
  case limit => exact fun i _ j _ _ hlt => absurd hlt (Nat.not_lt_zero _)
  case control =>
    intro i _ c
    refine iff_of_false (by simp) ?_
    rintro ⟨a, -, -, hc, -⟩
    exact Nat.not_lt_zero c hc
  case ends => exact fun a _ hlt => absurd hlt (Nat.not_lt_zero _)

/-- The blocks that `ciMethodBlocks` builds partition the method. -/
theorem partition_new (hv : m.Confined) : Partition m (CiMethodBlocks.new m) := by
  have hall : ∀ h ∈ m.handlers, h ∈ m.handlers := fun _ hh => hh
  obtain ⟨hscanned, hhandlers, -⟩ := (scanned_initial hv).foldl_makeHandlerBlocks hv hall
  rw [CiMethodBlocks.new, doAnalysis]
  simp only
  generalize m.handlers.foldl (makeHandlerBlocks m.codeSize) _ = s at hscanned hhandlers ⊢
  obtain ⟨z, hz, hzero⟩ := hscanned.zero
  have hmap : s.bciToBlock 0 = some z := (hscanned.ahead 0 le_rfl z).mpr ⟨hz, hzero⟩
  have hinitial : Analyzed m 0 s z :=
    ⟨hscanned, ⟨hz, hzero.le, fun hpos => absurd hpos (lt_irrefl 0),
      fun j _ hlt => absurd hlt (Nat.not_lt_zero _)⟩,
      fun a _ hlt => absurd hlt (Nat.not_lt_zero _), fun a _ hlt => absurd hlt (Nat.not_lt_zero _)⟩
  obtain ⟨hend, hkept⟩ :=
    @Analyzed.foldl m 0 hv m.instructions (s, z) (fun _ hi => hi) _ hv.contiguous hinitial
  rw [hmap, Option.getD_some]
  exact hend.partition hv fun h hh => (hhandlers h hh).mono hkept

end CiMethodBlocks

end HotSpot
