import HotSpot.C1.MoveResolver
import Mathlib.Data.List.Pairwise
import Mathlib.Data.List.Perm.Basic
import Mathlib.Tactic.Ring

/-! # The moves of the resolver are a parallel copy

The invariant of `resolve_mappings`: every mapping still in the list reads, now, the value
that its original source held at the start; every other one has that value in its target;
and a register is blocked as many times as it is read. It is kept when a mapping with a
free target is processed, and when the source of one is spilled.
-/

namespace HotSpot.C1

variable {pd : Platform} {K V : Type}

/-! ## Cells and registers -/

namespace Interval

variable {it it' : Interval pd}

theorem fst_mem_registers {c : Cell} (h : c ∈ it.cells) : c.1 ∈ it.registers := by
  unfold cells at h
  unfold registers
  split at h
  · cases hhi : it.assignedRegHi <;> simp [hhi] at h <;> rcases h with rfl | rfl <;> simp
  · simp at h
    simp [h]

theorem length_cells : it.cells.length = if pd.needsPair it.type then 2 else 1 := by
  unfold cells
  split <;> rfl

theorem nodup_cells (h : it.registers.Nodup) : it.cells.Nodup := by
  unfold registers at h
  unfold cells
  split
  · cases hhi : it.assignedRegHi <;> simp_all
  · simp

/-- A second number is that of a register. -/
theorem eq_assignedReg {n : Nat} (h : n ∈ it.registers) (hn : pd.nofRegs ≤ n) :
    n = it.assignedReg := by
  rcases List.mem_cons.mp h with rfl | hhi
  · rfl
  · obtain ⟨-, -, hlt⟩ := it.pair n (Option.mem_toList.mp hhi)
    exact absurd hn (Nat.not_le.mpr hlt)

/-- A slot has no second number. -/
theorem assignedRegHi_of_slot (h : pd.nofRegs ≤ it.assignedReg) : it.assignedRegHi = none := by
  cases hhi : it.assignedRegHi with
  | none => rfl
  | some hi => exact absurd h (Nat.not_le.mpr (it.pair hi hhi).2.1)

/-- Two values of a type in the same slot have the same cells. -/
theorem cells_of_slot (hslot : pd.nofRegs ≤ it.assignedReg)
    (hreg : it'.assignedReg = it.assignedReg) (htype : it'.type = it.type) :
    it'.cells = it.cells := by
  unfold cells
  rw [hreg, htype, assignedRegHi_of_slot hslot, assignedRegHi_of_slot (hreg ▸ hslot)]

end Interval

theorem Source.length_words {value : K → Bool → V} {σ : Cell → V} {m : Mapping pd K}
    (htype : ∀ it, m.source = .interval it → it.type = m.target.type) :
    m.target.cells.length = (m.source.words value σ m.target.type).length := by
  cases hsource : m.source with
  | interval it => simp [Source.words, Interval.length_cells, htype it hsource]
  | constant opr =>
    rw [Source.words, Interval.length_cells]
    split <;> rfl

/-! ## Blocked registers -/

namespace MoveResolver

theorem foldl_count (l : List Nat) (direction : Int) (st : MoveResolver pd K) :
    ∃ blocked, l.foldl (fun st reg =>
        if reg < pd.nofRegs then st.setRegisterBlocked reg direction else st) st =
          { st with registerBlocked := blocked } ∧
      ∀ r < pd.nofRegs, blocked r = st.registerBlocked r + direction * (l.count r : Int) := by
  induction l generalizing st with
  | nil => exact ⟨st.registerBlocked, rfl, by simp⟩
  | cons reg l ih =>
    obtain ⟨blocked, heq, hblocked⟩ := ih
      (if reg < pd.nofRegs then st.setRegisterBlocked reg direction else st)
    refine ⟨blocked, ?_, fun r hr => ?_⟩
    · rw [List.foldl_cons, heq]
      split <;> rfl
    · rw [hblocked r hr, List.count_cons]
      by_cases hreg : reg < pd.nofRegs
      · rw [if_pos hreg, setRegisterBlocked]
        dsimp only
        by_cases hrr : reg = r
        · subst hrr
          simp
          ring
        · rw [Function.update_of_ne (Ne.symm hrr)]
          simp [hrr]
      · rw [if_neg hreg]
        have hne : reg ≠ r := by omega
        simp [hne]

theorem countRegisters_spec (st : MoveResolver pd K) (it : Interval pd) (direction : Int) :
    ∃ blocked, st.countRegisters it direction = { st with registerBlocked := blocked } ∧
      ∀ r < pd.nofRegs,
        blocked r = st.registerBlocked r + direction * (it.registers.count r : Int) :=
  foldl_count it.registers direction st

theorem blockSource_spec (st : MoveResolver pd K) (source : Source pd K) :
    ∃ blocked, st.blockSource source = { st with registerBlocked := blocked } ∧
      ∀ r < pd.nofRegs, blocked r = st.registerBlocked r + (source.registers.count r : Int) := by
  cases source with
  | interval it =>
    obtain ⟨blocked, heq, hblocked⟩ := st.countRegisters_spec it 1
    refine ⟨blocked, heq, fun r hr => ?_⟩
    rw [hblocked r hr, one_mul]
    rfl
  | constant opr => exact ⟨st.registerBlocked, rfl, fun r _ => by simp [Source.registers]⟩

theorem unblockSource_spec (st : MoveResolver pd K) (source : Source pd K) :
    ∃ blocked, st.unblockSource source = { st with registerBlocked := blocked } ∧
      ∀ r < pd.nofRegs, blocked r = st.registerBlocked r - (source.registers.count r : Int) := by
  cases source with
  | interval it =>
    obtain ⟨blocked, heq, hblocked⟩ := st.countRegisters_spec it (-1)
    refine ⟨blocked, heq, fun r hr => ?_⟩
    rw [hblocked r hr, neg_one_mul, ← sub_eq_add_neg]
    rfl
  | constant opr => exact ⟨st.registerBlocked, rfl, fun r _ => by simp [Source.registers]⟩

/-- How often a register is read by mappings. -/
def reads (ms : List (Mapping pd K)) (r : Nat) : Nat :=
  (ms.flatMap (·.source.registers)).count r

/-- The registers are blocked as often as they are read. -/
def BlocksReads (st : MoveResolver pd K) (ms : List (Mapping pd K)) : Prop :=
  ∀ r < pd.nofRegs, st.registerBlocked r = reads ms r

theorem reads_cons (m : Mapping pd K) (ms : List (Mapping pd K)) (r : Nat) :
    reads (m :: ms) r = m.source.registers.count r + reads ms r := by
  rw [reads, List.flatMap_cons, List.count_append, reads]

theorem reads_pos {ms : List (Mapping pd K)} {m : Mapping pd K} (hm : m ∈ ms) {r : Nat}
    (hr : r ∈ m.source.registers) : 0 < reads ms r :=
  List.count_pos_iff.mpr (List.mem_flatMap.mpr ⟨m, hm, hr⟩)

theorem foldr_blockSource (ms : List (Mapping pd K)) (st : MoveResolver pd K)
    (hzero : ∀ r < pd.nofRegs, st.registerBlocked r = 0) :
    ∃ blocked, ms.foldr (fun m st => st.blockSource m.source) st =
        { st with registerBlocked := blocked } ∧
      ∀ r < pd.nofRegs, blocked r = reads ms r := by
  induction ms with
  | nil => exact ⟨st.registerBlocked, rfl, hzero⟩
  | cons m ms ih =>
    obtain ⟨blocked, heq, hblocked⟩ := ih
    obtain ⟨blocked', heq', hblocked'⟩ :=
      blockSource_spec { st with registerBlocked := blocked } m.source
    refine ⟨blocked', by rw [List.foldr_cons, heq, heq'], fun r hr => ?_⟩
    have hr' := hblocked r hr
    rw [hblocked' r hr, reads_cons]
    dsimp only
    omega

theorem blocksReads_blockAll (st : MoveResolver pd K)
    (hzero : ∀ r < pd.nofRegs, st.registerBlocked r = 0) :
    st.blockAll.BlocksReads st.mappings ∧ st.blockAll.mappings = st.mappings ∧
      st.blockAll.inserted = st.inserted ∧ st.blockAll.allocator = st.allocator := by
  obtain ⟨blocked, heq, hblocked⟩ := foldr_blockSource st.mappings st hzero
  rw [blockAll, heq]
  exact ⟨hblocked, rfl, rfl, rfl⟩

/-! ## Free targets -/

variable {st : MoveResolver pd K} {m : Mapping pd K} {ms : List (Mapping pd K)}

/-- No other mapping reads a register of a free target. -/
theorem not_mem_of_saveToProcessMove (hblocked : st.BlocksReads (m :: ms))
    (hsave : st.saveToProcessMove m = true) {r : Nat} (hr : r ∈ m.target.registers)
    (hreg : r < pd.nofRegs) {m' : Mapping pd K} (hm' : m' ∈ ms) : r ∉ m'.source.registers := by
  intro hread
  have hpos := reads_pos hm' hread
  have hcount := hblocked r hreg
  rw [reads_cons] at hcount
  have hfree := List.all_eq_true.mp hsave r hr
  simp only [isFree, hreg, decide_true, Bool.true_and, Bool.not_eq_true', Bool.or_eq_false_iff,
    decide_eq_false_iff_not, Bool.and_eq_false_iff, not_not] at hfree
  obtain ⟨hle, hown⟩ := hfree
  have hone : st.registerBlocked r = 1 := by omega
  have hmem := hown.resolve_left (by simp [hone])
  have hownPos : 0 < m.source.registers.count r := List.count_pos_iff.mpr (by simpa using hmem)
  omega

/-- A target that is not free is in a register that some mapping reads. -/
theorem exists_mem_of_not_saveToProcessMove (hblocked : st.BlocksReads ms)
    (hsave : st.saveToProcessMove m = false) :
    ∃ r ∈ m.target.registers, r < pd.nofRegs ∧ ∃ m' ∈ ms, r ∈ m'.source.registers := by
  obtain ⟨r, hr, hbusy⟩ := List.all_eq_false.mp hsave
  simp only [isFree, Bool.not_eq_true, Bool.not_eq_false', Bool.and_eq_true, decide_eq_true_iff,
    Bool.or_eq_true] at hbusy
  obtain ⟨hreg, hbusy⟩ := hbusy
  have hcount := hblocked r hreg
  have hpos : 0 < reads ms r := by
    rcases hbusy with hmany | ⟨hone, -⟩ <;> omega
  obtain ⟨m', hm', hr'⟩ := List.mem_flatMap.mp (List.count_pos_iff.mp hpos)
  exact ⟨r, hr, hreg, m', hm', hr'⟩

end MoveResolver

/-! ## What is kept -/

/-- What the assertions before and during the resolution say of the mappings. -/
structure Verified (ms : List (Mapping pd K)) : Prop where
  targets : (ms.flatMap (·.target.registers)).Nodup
  /-- A slot that is read is written by a mapping only that reads it itself. -/
  slots : ∀ m ∈ ms, ∀ m' ∈ ms, ∀ it', m'.source = .interval it' → pd.nofRegs ≤ it'.assignedReg →
    it'.assignedReg = m.target.assignedReg →
    ∃ it, m.source = .interval it ∧ it.assignedReg = m.target.assignedReg
  types : ∀ m ∈ ms, ∀ it, m.source = .interval it → it.type = m.target.type

theorem Verified.disjoint {ms : List (Mapping pd K)} (h : Verified ms) {m m' : Mapping pd K}
    (hm : m ∈ ms) (hm' : m' ∈ ms) (hne : m ≠ m') {r : Nat} (hr : r ∈ m.target.registers) :
    r ∉ m'.target.registers := by
  have hpairwise := (List.nodup_flatMap.mp h.targets).2
  have hsymm : Std.Symm (Function.onFun List.Disjoint fun m : Mapping pd K => m.target.registers) :=
    ⟨fun _ _ hdisjoint _ hr hr' => hdisjoint hr' hr⟩
  exact fun hr' => hpairwise.forall hm hm' hne hr hr'

/-- Where the value of an original mapping is read from. -/
inductive Origin (scan : LinearScan) (m₀ : Mapping pd K) : Source pd K → Prop where
  | same : Origin scan m₀ m₀.source
  | spilled (it spill : Interval pd) (hsource : m₀.source = .interval it)
      (hreg : it.assignedReg < pd.nofRegs) (htype : spill.type = it.type)
      (hslot : scan.canonicalSpillSlot it.splitParent = some spill.assignedReg) :
      Origin scan m₀ (.interval spill)

/-- The value keeps its type. -/
theorem Origin.type {scan : LinearScan} {m₀ : Mapping pd K} {source : Source pd K}
    (h : Origin scan m₀ source) (htype : ∀ it, m₀.source = .interval it → it.type = m₀.target.type)
    (it : Interval pd) (hit : source = .interval it) : it.type = m₀.target.type := by
  cases h with
  | same => exact htype it hit
  | spilled it₀ spill hsource _ hspill =>
    cases hit
    exact hspill.trans (htype it₀ hsource)

/-- A value in a register is where it was. -/
theorem Origin.eq_of_register {scan : LinearScan} {m₀ : Mapping pd K} {it : Interval pd}
    {ms₀ : List (Mapping pd K)} (h : Origin scan m₀ (.interval it)) (hslots : SpillSlots ms₀ scan)
    (hm₀ : m₀ ∈ ms₀) (hreg : it.assignedReg < pd.nofRegs) : m₀.source = .interval it := by
  generalize hsource : Source.interval it = source at h
  cases h with
  | same => rfl
  | spilled it₀ spill hsource₀ _ _ hslot =>
    cases hsource
    have hle := (hslots.canonical m₀ hm₀ it₀ hsource₀ _ hslot).1
    exact absurd hle (Nat.not_le.mpr hreg)

theorem Origin.mono {scan scan' : LinearScan} {m₀ : Mapping pd K} {source : Source pd K}
    (hkeep : ∀ p s, scan.canonicalSpillSlot p = some s → scan'.canonicalSpillSlot p = some s)
    (h : Origin scan m₀ source) : Origin scan' m₀ source := by
  cases h with
  | same => exact .same
  | spilled it spill hsource hreg htype hslot =>
    exact .spilled it spill hsource hreg htype (hkeep _ _ hslot)

/-- The mappings `ms` are still to be processed when the store is `σ`. -/
structure Resolving (ms₀ : List (Mapping pd K)) (value : K → Bool → V) (σ₀ : Cell → V)
    (ms : List (Mapping pd K)) (σ : Cell → V) (scan : LinearScan) : Prop where
  targets : (ms.flatMap (·.target.registers)).Nodup
  pending : ∀ m ∈ ms, ∃ m₀ ∈ ms₀, m.target = m₀.target ∧ Origin scan m₀ m.source ∧
    m.source.words value σ m.target.type = m₀.source.words value σ₀ m₀.target.type
  done : ∀ m₀ ∈ ms₀, (∃ m ∈ ms, m.target = m₀.target) ∨
    m₀.target.cells.map σ = m₀.source.words value σ₀ m₀.target.type
  slots : SpillSlots ms₀ scan

namespace Resolving

variable {ms₀ ms ms' : List (Mapping pd K)} {value : K → Bool → V} {σ₀ σ : Cell → V}
  {scan scan' : LinearScan} {m : Mapping pd K}

theorem start (hv : Verified ms₀) (hslots : SpillSlots ms₀ scan) :
    Resolving ms₀ value σ₀ ms₀ σ₀ scan where
  targets := hv.targets
  pending m hm := ⟨m, hm, rfl, .same, rfl⟩
  done m₀ hm₀ := .inl ⟨m₀, hm₀, rfl⟩
  slots := hslots

theorem perm (h : Resolving ms₀ value σ₀ ms σ scan) (hperm : ms.Perm ms') :
    Resolving ms₀ value σ₀ ms' σ scan where
  targets := (hperm.flatMap_right _).nodup_iff.mp h.targets
  pending m hm := h.pending m (hperm.mem_iff.mpr hm)
  done m₀ hm₀ := (h.done m₀ hm₀).imp_left fun ⟨m, hm, heq⟩ => ⟨m, hperm.mem_iff.mp hm, heq⟩
  slots := h.slots

/-- The target of a mapping is apart from those of the others. -/
theorem not_mem_target (h : Resolving ms₀ value σ₀ (m :: ms) σ scan) {m' : Mapping pd K}
    (hm' : m' ∈ ms) {r : Nat} (hr : r ∈ m.target.registers) : r ∉ m'.target.registers := by
  have htargets := h.targets
  rw [List.flatMap_cons] at htargets
  intro hr'
  exact (List.nodup_append.mp htargets).2.2 r hr r (List.mem_flatMap.mpr ⟨m', hm', hr'⟩) rfl

/-- Different mappings have different origins. -/
theorem origin_ne (h : Resolving ms₀ value σ₀ (m :: ms) σ scan) {m' m₀ m₀' : Mapping pd K}
    (hm' : m' ∈ ms) (hm₀ : m.target = m₀.target) (hm₀' : m'.target = m₀'.target) : m₀ ≠ m₀' := by
  rintro rfl
  refine h.not_mem_target hm' List.mem_cons_self ?_
  rw [hm₀, ← hm₀']
  exact List.mem_cons_self

/-- A mapping of a slot to itself changes nothing. -/
theorem execute_self {it : Interval pd} (hsource : m.source = .interval it)
    (hslot : pd.nofRegs ≤ it.assignedReg) (hreg : it.assignedReg = m.target.assignedReg)
    (htype : it.type = m.target.type) : m.execute value σ = σ := by
  rw [Mapping.execute, hsource, Source.words, Interval.cells_of_slot hslot hreg.symm htype.symm,
    assign_map_self]

theorem tail_targets (h : Resolving ms₀ value σ₀ (m :: ms) σ scan) :
    (ms.flatMap (·.target.registers)).Nodup := by
  have htargets := h.targets
  rw [List.flatMap_cons] at htargets
  exact (List.nodup_append.mp htargets).2.1

/-- Another mapping still reads its value after a move to a free target. -/
theorem words_execute (hv : Verified ms₀) (h : Resolving ms₀ value σ₀ (m :: ms) σ scan)
    {m' : Mapping pd K} (hm' : m' ∈ ms)
    (hfree : ∀ r ∈ m.target.registers, r < pd.nofRegs → r ∉ m'.source.registers) :
    m'.source.words value (m.execute value σ) m'.target.type =
      m'.source.words value σ m'.target.type := by
  obtain ⟨m₀, hm₀, htarget, horigin, -⟩ := h.pending m List.mem_cons_self
  obtain ⟨m₀', hm₀', htarget', horigin', -⟩ := h.pending m' (List.mem_cons_of_mem _ hm')
  have hne := h.origin_ne hm' htarget htarget'
  cases hsource' : m'.source with
  | constant opr => rfl
  | interval it' =>
    rw [hsource'] at horigin' hfree
    by_cases hclash : ∃ c ∈ it'.cells, c ∈ m.target.cells
    · obtain ⟨c, hc', hc⟩ := hclash
      have hr := Interval.fst_mem_registers hc
      have hr' := Interval.fst_mem_registers hc'
      have hstack : pd.nofRegs ≤ c.1 := Nat.not_lt.mp fun hlt => hfree _ hr hlt hr'
      have hreg := Interval.eq_assignedReg hr hstack
      have hreg' := Interval.eq_assignedReg hr' hstack
      have hself : m.execute value σ = σ := by
        generalize hsrc : Source.interval it' = src at horigin'
        cases horigin' with
        | same =>
          obtain ⟨it, hit, heq⟩ := hv.slots m₀ hm₀ m₀' hm₀' it' hsrc.symm
            (hreg' ▸ hstack) (by rw [← hreg', hreg, htarget])
          have hslot : pd.nofRegs ≤ it.assignedReg := by rw [heq, ← htarget, ← hreg]; exact hstack
          generalize hsource : m.source = source at horigin
          cases horigin with
          | same =>
            exact execute_self (hsource.trans hit) hslot (heq.trans (by rw [htarget]))
              ((hv.types m₀ hm₀ it hit).trans (by rw [htarget]))
          | spilled it₀ spill hsource₀ hlt =>
            rw [hit] at hsource₀
            cases hsource₀
            exact absurd hslot (Nat.not_le.mpr hlt)
        | spilled it₀ spill hsource₀ hlt htype hslot =>
          cases hsrc
          refine absurd ?_ (h.slots.target m₀' hm₀' it₀ hsource₀ _ hslot m₀ hm₀ hne)
          rw [← htarget, ← hreg, ← hreg']
      rw [hself]
    · refine map_assign_of_disjoint fun c hc hct => hclash ⟨c, hc, hct⟩

/-- A mapping with a free target is processed. -/
theorem process (hv : Verified ms₀) (h : Resolving ms₀ value σ₀ (m :: ms) σ scan)
    (hfree : ∀ r ∈ m.target.registers, r < pd.nofRegs → ∀ m' ∈ ms, r ∉ m'.source.registers) :
    Resolving ms₀ value σ₀ ms (m.execute value σ) scan := by
  obtain ⟨m₀, hm₀, htarget, horigin, hwords⟩ := h.pending m List.mem_cons_self
  have hnodup : m.target.registers.Nodup := by
    rw [htarget]
    exact (List.nodup_flatMap.mp hv.targets).1 m₀ hm₀
  have htype := horigin.type (hv.types m₀ hm₀)
  rw [← htarget] at htype
  refine ⟨h.tail_targets, ?_, ?_, h.slots⟩
  · intro m' hm'
    obtain ⟨m₀', hm₀', htarget', horigin', hwords'⟩ := h.pending m' (List.mem_cons_of_mem _ hm')
    refine ⟨m₀', hm₀', htarget', horigin', ?_⟩
    rw [← hwords']
    exact words_execute hv h hm' fun r hr hlt => hfree r hr hlt m' hm'
  · intro m₁ hm₁
    by_cases heq : m₁ = m₀
    · subst heq
      right
      rw [← hwords, ← htarget]
      exact map_assign_self (Interval.nodup_cells hnodup) (Source.length_words htype)
    · rcases h.done m₁ hm₁ with ⟨m'', hm'', htarget''⟩ | hdone
      · rcases List.mem_cons.mp hm'' with rfl | hm''
        · refine absurd ?_ (hv.disjoint hm₁ hm₀ heq (r := m₁.target.assignedReg) List.mem_cons_self)
          rw [← htarget'', htarget]
          exact List.mem_cons_self
        · exact .inl ⟨m'', hm'', htarget''⟩
      · right
        rw [← hdone]
        refine map_assign_of_disjoint fun c hc hct => ?_
        have hr := Interval.fst_mem_registers hct
        rw [htarget] at hr
        exact hv.disjoint hm₁ hm₀ heq (Interval.fst_mem_registers hc) hr

/-- The source of a mapping with a busy target is spilled. -/
theorem spill (h : Resolving ms₀ value σ₀ (m :: ms) σ scan) {it spilled : Interval pd}
    (hit : m.source = .interval it) (hreg : it.assignedReg < pd.nofRegs) {r : Nat}
    (hr : r ∈ m.target.registers) (hbusy : r < pd.nofRegs)
    (hslots : SpillSlots ms₀ scan')
    (hslot : scan'.canonicalSpillSlot it.splitParent = some spilled.assignedReg)
    (hkeep : ∀ p s, scan.canonicalSpillSlot p = some s → scan'.canonicalSpillSlot p = some s)
    (htype : spilled.type = it.type) :
    Resolving ms₀ value σ₀ (⟨.interval spilled, m.target⟩ :: ms)
      (Mapping.execute value σ ⟨.interval it, spilled⟩) scan' := by
  obtain ⟨m₀, hm₀, htarget, horigin, hwords⟩ := h.pending m List.mem_cons_self
  rw [hit] at horigin hwords
  have hsource₀ := horigin.eq_of_register h.slots hm₀ hreg
  have hstack : pd.nofRegs ≤ spilled.assignedReg :=
    (hslots.canonical m₀ hm₀ it hsource₀ _ hslot).1
  have hnodup : spilled.registers.Nodup := by
    rw [Interval.registers, Interval.assignedRegHi_of_slot hstack]
    exact List.nodup_singleton _
  -- The spill slot holds the value.
  have hvalue : spilled.cells.map (Mapping.execute value σ ⟨.interval it, spilled⟩) =
      it.cells.map σ := by
    refine map_assign_self (Interval.nodup_cells hnodup) ?_
    rw [Source.words, List.length_map, Interval.length_cells, Interval.length_cells, htype]
  -- Other cells are not touched.
  have helsewhere : ∀ it' : Interval pd, it'.assignedReg ≠ spilled.assignedReg →
      it'.cells.map (Mapping.execute value σ ⟨.interval it, spilled⟩) = it'.cells.map σ := by
    intro it' hne
    refine map_assign_of_disjoint fun c hc hct => hne ?_
    have hct := Interval.fst_mem_registers hct
    have hmem : c.1 = spilled.assignedReg := by
      rw [Interval.registers, Interval.assignedRegHi_of_slot hstack] at hct
      exact List.mem_singleton.mp hct
    rw [← hmem]
    exact (Interval.eq_assignedReg (Interval.fst_mem_registers hc) (hmem ▸ hstack)).symm
  refine ⟨h.targets, ?_, ?_, hslots⟩
  · intro m' hm'
    rcases List.mem_cons.mp hm' with rfl | hm'
    · exact ⟨m₀, hm₀, htarget, .spilled it spilled hsource₀ hreg htype hslot, hvalue.trans hwords⟩
    · obtain ⟨m₀', hm₀', htarget', horigin', hwords'⟩ := h.pending m' (List.mem_cons_of_mem _ hm')
      refine ⟨m₀', hm₀', htarget', horigin'.mono hkeep, ?_⟩
      rw [← hwords']
      cases hsource' : m'.source with
      | constant opr => rfl
      | interval it' =>
        by_cases hclash : it'.assignedReg = spilled.assignedReg
        · rw [hsource'] at horigin' hwords'
          generalize hsrc : Source.interval it' = src at horigin'
          cases horigin' with
          | same =>
            have hne : it' ≠ it := by
              rintro rfl
              omega
            exact absurd hclash
              (hslots.source m₀ hm₀ it hsource₀ _ hslot m₀' hm₀' it' hsrc.symm hne).1
          | spilled it₀ _ hsource₀' _ htype' hslot' =>
            cases hsrc
            by_cases hsame : it₀ = it
            · subst hsame
              rw [hsource₀] at hwords
              rw [hsource₀'] at hwords'
              rw [Source.words, Interval.cells_of_slot hstack hclash (htype'.trans htype.symm),
                hvalue]
              exact hwords.trans hwords'.symm
            · refine absurd ?_
                (hslots.source m₀ hm₀ it hsource₀ _ hslot m₀' hm₀' it₀ hsource₀' hsame).2
              rw [hkeep _ _ hslot', hclash]
        · exact helsewhere it' hclash
  · intro m₁ hm₁
    rcases h.done m₁ hm₁ with ⟨m'', hm'', htarget''⟩ | hdone
    · rcases List.mem_cons.mp hm'' with rfl | hm''
      · exact .inl ⟨_, List.mem_cons_self, htarget''⟩
      · exact .inl ⟨m'', List.mem_cons_of_mem _ hm'', htarget''⟩
    · right
      rw [← hdone]
      refine helsewhere m₁.target ?_
      by_cases heq : m₁ = m₀
      · subst heq
        intro hclash
        rw [htarget, Interval.registers,
          Interval.assignedRegHi_of_slot (hclash ▸ hstack)] at hr
        have hsame := List.mem_singleton.mp hr
        omega
      · exact hslots.target m₀ hm₀ it hsource₀ _ hslot m₁ hm₁ heq

end Resolving

/-! ## The loops -/

namespace MoveResolver

/-- The resolver is on its way from the mappings `ms₀` and the store `σ₀`. -/
structure Invariant (ms₀ : List (Mapping pd K)) (value : K → Bool → V) (σ₀ : Cell → V)
    (st : MoveResolver pd K) : Prop where
  resolving : Resolving ms₀ value σ₀ st.mappings (executeAll value σ₀ st.inserted) st.allocator
  blocked : st.BlocksReads st.mappings

/-- The mapping reads a register. -/
def inRegister (m : Mapping pd K) : Bool :=
  match m.source with
  | .interval it => it.assignedReg < pd.nofRegs
  | .constant _ => false

/-- What is left to do: the mappings, and the sources in registers. -/
def work (st : MoveResolver pd K) : Nat := st.mappings.length + st.mappings.countP inRegister

variable {ms₀ : List (Mapping pd K)} {value : K → Bool → V} {σ₀ : Cell → V}
  {st : MoveResolver pd K} {m : Mapping pd K} {i : Nat}

theorem reads_perm {ms ms' : List (Mapping pd K)} (h : ms.Perm ms') (r : Nat) :
    reads ms r = reads ms' r :=
  (h.flatMap_right _).count_eq r

theorem executeAll_append_one (value : K → Bool → V) (σ : Cell → V) (moves : List (Move pd K))
    (m : Move pd K) :
    executeAll value σ (moves ++ [m]) = m.execute value (executeAll value σ moves) := by
  rw [executeAll, List.foldl_append]
  rfl

/-- The mapping at an index and the rest. -/
theorem perm_of_getElem? (hm : st.mappings[i]? = some m) :
    (m :: st.mappings.eraseIdx i).Perm st.mappings := by
  obtain ⟨hlt, rfl⟩ := List.getElem?_eq_some_iff.mp hm
  exact List.getElem_cons_eraseIdx_perm hlt

theorem processMapping_eq (st : MoveResolver pd K) (i : Nat) (m : Mapping pd K) :
    ∃ blocked, st.processMapping i m = { st with
        inserted := st.inserted ++ [m]
        registerBlocked := blocked
        mappings := st.mappings.eraseIdx i } ∧
      ∀ r < pd.nofRegs, blocked r = st.registerBlocked r - (m.source.registers.count r : Int) := by
  obtain ⟨blocked, heq, hblocked⟩ := (st.insertMove m).unblockSource_spec m.source
  exact ⟨blocked, by rw [processMapping, heq]; rfl, hblocked⟩

theorem Invariant.processMapping (hv : Verified ms₀) (h : Invariant ms₀ value σ₀ st)
    (hm : st.mappings[i]? = some m) (hsave : st.saveToProcessMove m = true) :
    Invariant ms₀ value σ₀ (st.processMapping i m) := by
  have hperm := perm_of_getElem? hm
  have hblocks : st.BlocksReads (m :: st.mappings.eraseIdx i) := by
    intro r hr
    rw [h.blocked r hr, reads_perm hperm]
  obtain ⟨blocked, heq, hblocked⟩ := st.processMapping_eq i m
  rw [heq]
  constructor
  · dsimp only
    rw [executeAll_append_one]
    refine (h.resolving.perm hperm.symm).process hv ?_
    intro r hr hreg m' hm'
    exact not_mem_of_saveToProcessMove hblocks hsave hr hreg hm'
  · intro r hr
    dsimp only
    have hcount := hblocks r hr
    rw [reads_cons] at hcount
    rw [hblocked r hr]
    omega

theorem work_processMapping (hm : st.mappings[i]? = some m) :
    (st.processMapping i m).work < st.work := by
  have hperm := perm_of_getElem? hm
  obtain ⟨blocked, heq, -⟩ := st.processMapping_eq i m
  have hlength := hperm.length_eq
  have hcount := hperm.countP_eq inRegister
  rw [heq, work, work]
  dsimp only
  rw [List.length_cons] at hlength
  rw [List.countP_cons] at hcount
  omega

theorem spill_eq (st : MoveResolver pd K) {it target : Interval pd}
    (hm : st.mappings[i]? = some ⟨.interval it, target⟩) {slot : Nat} {scan : LinearScan}
    (hslot : st.allocator.canonicalSlot pd it = (slot, scan)) :
    ∃ blocked, st.spill i = some { st with
        allocator := { scan with intervals := scan.intervals + 1 }
        inserted := st.inserted ++ [⟨.interval it, spillInterval it scan.intervals slot⟩]
        registerBlocked := blocked
        mappings := st.mappings.set i
          ⟨.interval (spillInterval it scan.intervals slot), target⟩ } ∧
      ∀ r < pd.nofRegs, blocked r = st.registerBlocked r - (it.registers.count r : Int) := by
  rw [spill, hm]
  dsimp only
  rw [hslot]
  dsimp only
  obtain ⟨blocked, heq, hblocked⟩ := unblockSource_spec { st with
    allocator := { scan with intervals := scan.intervals + 1 }
    inserted := st.inserted ++ [⟨.interval it, spillInterval it scan.intervals slot⟩]
    mappings := st.mappings.set i
      ⟨.interval (spillInterval it scan.intervals slot), target⟩ } (.interval it)
  exact ⟨blocked, congrArg some heq, hblocked⟩

/-- A candidate whose target is busy can be spilled, and that is progress. -/
theorem Invariant.spill (h : Invariant ms₀ value σ₀ st)
    {it target : Interval pd} (hm : st.mappings[i]? = some ⟨.interval it, target⟩)
    (hreg : it.assignedReg < pd.nofRegs)
    (hsave : st.saveToProcessMove ⟨.interval it, target⟩ = false) :
    ∃ st', st.spill i = some st' ∧ Invariant ms₀ value σ₀ st' ∧ st'.work < st.work := by
  obtain ⟨⟨slot, scan⟩, hslot⟩ : ∃ result, st.allocator.canonicalSlot pd it = result := ⟨_, rfl⟩
  obtain ⟨blocked, heq, hblocked⟩ := st.spill_eq hm hslot
  obtain ⟨hslots, hcanonical, hkeep⟩ := h.resolving.slots.canonicalSlot hslot
  obtain ⟨r, hr, hbusy, -⟩ := exists_mem_of_not_saveToProcessMove h.blocked hsave
  have hperm := perm_of_getElem? hm
  have hlt : i < st.mappings.length := (List.getElem?_eq_some_iff.mp hm).1
  have hset := List.set_perm_cons_eraseIdx hlt
    ⟨.interval (spillInterval it scan.intervals slot), target⟩
  have hslots' : SpillSlots ms₀ { scan with intervals := scan.intervals + 1 } :=
    ⟨hslots.hole, hslots.inUse, hslots.canonical, hslots.parent, hslots.target, hslots.source⟩
  have hcanonical' : scan.canonicalSpillSlot it.splitParent =
      some (spillInterval it scan.intervals slot).assignedReg := hcanonical
  have hresolving := (h.resolving.perm hperm.symm).spill rfl hreg hr hbusy hslots' hcanonical'
    hkeep rfl
  have hstack : pd.nofRegs ≤ slot := by
    obtain ⟨m₀, hm₀, -, horigin, -⟩ := h.resolving.pending _ (List.mem_of_getElem? hm)
    have hsource := horigin.eq_of_register h.resolving.slots hm₀ hreg
    exact (hslots.canonical m₀ hm₀ it hsource _ hcanonical).1
  refine ⟨_, heq, ⟨?_, ?_⟩, ?_⟩
  · dsimp only
    rw [executeAll_append_one]
    exact hresolving.perm hset.symm
  · intro r hr
    have hbefore := h.blocked r hr
    rw [← reads_perm hperm, reads_cons] at hbefore
    have hspilled : (spillInterval it scan.intervals slot).registers.count r = 0 := by
      refine List.count_eq_zero.mpr fun hmem => ?_
      have hslotEq : r = slot := List.mem_singleton.mp hmem
      omega
    dsimp only
    rw [hblocked r hr, reads_perm hset, reads_cons]
    simp only [Source.registers] at hbefore ⊢
    omega
  · have hlength := hperm.length_eq
    have hcount := hperm.countP_eq inRegister
    have hcount' := hset.countP_eq inRegister
    have hin : inRegister (⟨.interval it, target⟩ : Mapping pd K) = true := decide_eq_true hreg
    have hout : inRegister (⟨.interval (spillInterval it scan.intervals slot), target⟩ :
        Mapping pd K) = false := decide_eq_false (Nat.not_lt.mpr hstack)
    rw [work, work]
    dsimp only
    rw [List.countP_cons, hin] at hcount
    rw [List.countP_cons, hout] at hcount'
    rw [List.length_set]
    simp at hcount hcount'
    omega

/-- A candidate that can be spilled. -/
def Spillable (st : MoveResolver pd K) (c : Nat) : Prop :=
  ∃ it target, st.mappings[c]? = some ⟨.interval it, target⟩ ∧ it.assignedReg < pd.nofRegs

/-- What a pass from index `i` down does: it keeps the invariant, and either ends a mapping
or finds every target busy and the candidate among them. -/
structure Pass.Advances (ms₀ : List (Mapping pd K)) (value : K → Bool → V) (σ₀ : Cell → V)
    (i : Nat) (p p' : Pass pd K) : Prop where
  invariant : Invariant ms₀ value σ₀ p'.resolver
  work_le : p'.resolver.work ≤ p.resolver.work
  work_lt : p.processedInterval = false → p'.processedInterval = true →
    p'.resolver.work < p.resolver.work
  stuck : p'.processedInterval = false → p.processedInterval = false ∧ p'.resolver = p.resolver ∧
    (∀ j < i, ∀ m, p.resolver.mappings[j]? = some m → p.resolver.saveToProcessMove m = false) ∧
    ((∃ c, p.spillCandidate = some c ∧ p.resolver.Spillable c) ∨
        (∃ j < i, p.resolver.Spillable j) →
      ∃ c, p'.spillCandidate = some c ∧ p.resolver.Spillable c)

/-- A visit ends the mapping, or its target is busy. -/
theorem Pass.visit_cases (hv : Verified ms₀) {p : Pass pd K}
    (h : Invariant ms₀ value σ₀ p.resolver) (i : Nat) :
    Invariant ms₀ value σ₀ (p.visit i).resolver ∧
      (((p.visit i).processedInterval = true ∧
          (p.visit i).resolver.work < p.resolver.work) ∨
        ((p.visit i).processedInterval = p.processedInterval ∧
          (p.visit i).resolver = p.resolver ∧
          (∀ m, p.resolver.mappings[i]? = some m → p.resolver.saveToProcessMove m = false) ∧
          ((p.visit i).spillCandidate = some i ∧ p.resolver.Spillable i ∨
            (p.visit i).spillCandidate = p.spillCandidate ∧ ¬p.resolver.Spillable i))) := by
  unfold Pass.visit
  split
  next hnone =>
    refine ⟨h, .inr ⟨rfl, rfl, ?_, .inr ⟨rfl, ?_⟩⟩⟩
    · intro m hm
      rw [hnone] at hm
      cases hm
    · rintro ⟨it, target, hm, -⟩
      rw [hnone] at hm
      cases hm
  next m hm =>
    have hbusy : p.resolver.saveToProcessMove m = false → ∀ m',
        p.resolver.mappings[i]? = some m' → p.resolver.saveToProcessMove m' = false := by
      intro hsave m' hm'
      rw [hm] at hm'
      cases hm'
      exact hsave
    split
    next hsave => exact ⟨h.processMapping hv hm hsave, .inl ⟨rfl, work_processMapping hm⟩⟩
    next hsave =>
      rw [Bool.not_eq_true] at hsave
      obtain ⟨source, target⟩ := m
      cases source with
      | interval it =>
        dsimp only
        split
        next hreg =>
          exact ⟨h, .inr ⟨rfl, rfl, hbusy hsave, .inl ⟨rfl, it, target, hm, hreg⟩⟩⟩
        next hreg =>
          refine ⟨h, .inr ⟨rfl, rfl, hbusy hsave, .inr ⟨rfl, ?_⟩⟩⟩
          rintro ⟨it', target', hm', hreg'⟩
          rw [hm] at hm'
          cases hm'
          exact hreg hreg'
      | constant opr =>
        refine ⟨h, .inr ⟨rfl, rfl, hbusy hsave, .inr ⟨rfl, ?_⟩⟩⟩
        rintro ⟨it', target', hm', -⟩
        rw [hm] at hm'
        cases hm'

theorem Pass.run_advances (hv : Verified ms₀) {p : Pass pd K}
    (h : Invariant ms₀ value σ₀ p.resolver) :
    Pass.Advances ms₀ value σ₀ i p (Pass.run i p) := by
  induction i generalizing p with
  | zero =>
    refine ⟨h, Nat.le_refl _, ?_, fun hstuck => ⟨hstuck, rfl, nofun, ?_⟩⟩
    · intro hfalse htrue
      exact absurd (hfalse.symm.trans htrue) Bool.false_ne_true
    · rintro (hcandidate | ⟨j, hj, -⟩)
      · exact hcandidate
      · exact absurd hj (Nat.not_lt_zero j)
  | succ i ih =>
    rw [Pass.run]
    obtain ⟨hinv, hcases⟩ := p.visit_cases hv h i
    obtain ⟨hinvariant, hle, hlt, hstuck⟩ := ih hinv
    rcases hcases with ⟨hprocessed, hwork⟩ | ⟨hprocessed, hsame, hbusy, hcandidate⟩
    · refine ⟨hinvariant, by omega, by omega, fun hfalse => ?_⟩
      rw [(hstuck hfalse).1] at hprocessed
      cases hprocessed
    · rw [hsame] at hle hlt hstuck
      rw [hprocessed] at hlt hstuck
      refine ⟨hinvariant, hle, hlt, fun hfalse => ?_⟩
      obtain ⟨hp, hresolver, hall, hspill⟩ := hstuck hfalse
      refine ⟨hp, hresolver, ?_, ?_⟩
      · intro j hj m hm
        rcases Nat.lt_succ_iff_lt_or_eq.mp hj with hj | rfl
        · exact hall j hj m hm
        · exact hbusy m hm
      · intro hcand
        refine hspill ?_
        rcases hcandidate with ⟨hcandidate, hspillable⟩ | ⟨hcandidate, hnot⟩
        · exact .inl ⟨i, hcandidate, hspillable⟩
        · rw [hcandidate]
          refine hcand.imp_right fun ⟨j, hj, hspillable⟩ => ⟨j, ?_, hspillable⟩
          rcases Nat.lt_succ_iff_lt_or_eq.mp hj with hj | rfl
          · exact hj
          · exact absurd hspillable hnot

/-- With every target busy some source can be spilled. -/
theorem exists_spillable (hblocked : st.BlocksReads st.mappings) (hne : st.mappings ≠ [])
    (hbusy : ∀ j < st.mappings.length, ∀ m, st.mappings[j]? = some m →
      st.saveToProcessMove m = false) :
    ∃ j < st.mappings.length, st.Spillable j := by
  have hpos : 0 < st.mappings.length := List.length_pos_of_ne_nil hne
  have hsave := hbusy 0 hpos _ (List.getElem?_eq_getElem hpos)
  obtain ⟨r, -, hreg, m, hm, hr⟩ := exists_mem_of_not_saveToProcessMove hblocked hsave
  obtain ⟨j, hj, hget⟩ := List.getElem_of_mem hm
  have hmj : st.mappings[j]? = some m := by rw [List.getElem?_eq_getElem hj, hget]
  obtain ⟨source, target⟩ := m
  cases source with
  | constant opr => exact absurd hr List.not_mem_nil
  | interval it =>
    refine ⟨j, hj, it, target, hmj, ?_⟩
    rcases List.mem_cons.mp hr with rfl | hhi
    · exact hreg
    · exact (it.pair r (Option.mem_toList.mp hhi)).2.1

/-- The loop ends, with nothing left. -/
theorem resolveLoop_ends (hv : Verified ms₀) {fuel : Nat} {candidate : Option Nat}
    (h : Invariant ms₀ value σ₀ st) (hfuel : st.work ≤ fuel) :
    ∃ st', resolveLoop fuel candidate st = some st' ∧ Invariant ms₀ value σ₀ st' ∧
      st'.mappings = [] := by
  induction fuel generalizing st candidate with
  | zero =>
    have hnil : st.mappings = [] := by
      unfold work at hfuel
      exact List.length_eq_zero_iff.mp (by omega)
    exact ⟨st, by rw [resolveLoop, hnil]; rfl, h, hnil⟩
  | succ fuel ih =>
    rw [resolveLoop]
    split
    next hempty => exact ⟨st, rfl, h, List.isEmpty_iff.mp hempty⟩
    next hempty =>
      have hne : st.mappings ≠ [] := by simpa using hempty
      have hpass : Pass.Advances ms₀ value σ₀ st.mappings.length ⟨st, false, candidate⟩ _ :=
        Pass.run_advances hv h
      obtain ⟨hinv, -, hlt, hstuck⟩ := hpass
      dsimp only at hlt hstuck ⊢
      split
      next hprocessed => exact ih hinv (by have := hlt rfl hprocessed; omega)
      next hprocessed =>
        obtain ⟨-, hsame, hbusy, hspill⟩ := hstuck (by simpa using hprocessed)
        obtain ⟨c, hc, it, target, hm, hreg⟩ :=
          hspill (.inr (exists_spillable h.blocked hne hbusy))
        have hsave := hbusy c (List.getElem?_eq_some_iff.mp hm).1 _ hm
        obtain ⟨st', hst', hinv', hwork⟩ := h.spill hm hreg hsave
        rw [hsame, hc]
        simp only [Option.bind_eq_bind, Option.bind_some, hst']
        exact ih hinv' (by omega)

theorem mem_fromIntervals {it : Interval pd} (hm : m ∈ st.mappings)
    (hit : m.source = .interval it) : it ∈ st.fromIntervals := by
  refine List.mem_filterMap.mpr ⟨m, hm, ?_⟩
  rw [hit]

theorem verified_of_verifyBeforeResolve (hverify : st.verifyBeforeResolve = true)
    (htypes : ∀ m ∈ st.mappings, ∀ it, m.source = .interval it → it.type = m.target.type) :
    Verified st.mappings := by
  simp only [verifyBeforeResolve, Bool.and_eq_true, decide_eq_true_iff, List.all_eq_true] at hverify
  obtain ⟨⟨⟨-, htargets⟩, -⟩, hslots⟩ := hverify
  refine ⟨htargets, ?_, htypes⟩
  intro m hm m' hm' it' hit' hstack hreg
  have hread : (st.fromIntervals.any fun it =>
      decide (pd.nofRegs ≤ it.assignedReg) && it.assignedReg == m.target.assignedReg) = true := by
    refine List.any_eq_true.mpr ⟨it', mem_fromIntervals hm' hit', ?_⟩
    rw [decide_eq_true hstack, hreg, beq_self_eq_true]
    rfl
  have hown := hslots m hm
  rw [hread] at hown
  cases hsource : m.source with
  | constant opr => simp [hsource] at hown
  | interval it =>
    refine ⟨it, rfl, ?_⟩
    rw [hsource] at hown
    exact (beq_iff_eq.mp (by simpa using hown)).symm

/-- `resolve_mappings` ends with moves that, run in order, give every target the value
that its source held at the start, and no register stays blocked. -/
theorem resolveMappings_parallelCopy {ms : List (Mapping pd K)} {multipleReadsAllowed : Bool}
    {scan : LinearScan}
    (hverify : (ofMappings ms multipleReadsAllowed scan).verifyBeforeResolve = true)
    (htypes : ∀ m ∈ ms, ∀ it, m.source = .interval it → it.type = m.target.type)
    (hslots : SpillSlots ms scan) (value : K → Bool → V) (σ : Cell → V) :
    ∃ st', (ofMappings ms multipleReadsAllowed scan).resolveMappings = some st' ∧
      st'.mappings = [] ∧ (∀ r < pd.nofRegs, st'.registerBlocked r = 0) ∧
      ∀ m ∈ ms, m.target.cells.map (executeAll value σ st'.inserted) =
        m.source.words value σ m.target.type := by
  have hv : Verified ms := verified_of_verifyBeforeResolve hverify htypes
  obtain ⟨hblocked, hmappings, hinserted, hallocator⟩ :=
    blocksReads_blockAll (ofMappings ms multipleReadsAllowed scan) fun _ _ => rfl
  have hstart : Invariant ms value σ (ofMappings ms multipleReadsAllowed scan).blockAll := by
    constructor
    · rw [hmappings, hinserted, hallocator]
      exact Resolving.start hv hslots
    · rw [hmappings]
      exact hblocked
  have hwork : (ofMappings ms multipleReadsAllowed scan).blockAll.work ≤ 2 * ms.length := by
    have hcount := @List.countP_le_length _ inRegister ms
    rw [work, hmappings]
    change ms.length + ms.countP inRegister ≤ 2 * ms.length
    omega
  obtain ⟨st', hend, hinv, hnil⟩ := @resolveLoop_ends _ _ _ _ _ _ _ hv _ none hstart hwork
  refine ⟨{ st' with multipleReadsAllowed := false }, ?_, hnil, ?_, ?_⟩
  · rw [resolveMappings]
    change (resolveLoop (2 * ms.length) none _ >>= _) = _
    rw [hend]
    rfl
  · intro r hr
    have hzero := hinv.blocked r hr
    rwa [hnil] at hzero
  · intro m hm
    rcases hinv.resolving.done m hm with ⟨m', hm', -⟩ | hdone
    · rw [hnil] at hm'
      cases hm'
    · exact hdone

/-- Four registers, two for a long. -/
def fourRegisters : Platform := ⟨4, fun type => type = .long⟩

/-- A long from registers 0 and 1 to 1 and 2, an int from 2 to 0, a constant to 3. -/
def overlappingPair : List (Mapping fourRegisters Nat) :=
  [⟨.interval ⟨10, .long, 0, some 1, 10, by simp [fourRegisters]⟩,
      ⟨20, .long, 1, some 2, 20, by simp [fourRegisters]⟩⟩,
    ⟨.interval ⟨11, .int, 2, none, 11, nofun⟩, ⟨21, .int, 0, none, 21, nofun⟩⟩,
    ⟨.constant 7, ⟨22, .int, 3, none, 22, nofun⟩⟩]

def noSpills : LinearScan := ⟨0, 0, none, fun _ => none, 30, false⟩

theorem resolveMappings_parallelCopy_overlappingPair :
    ∃ st', (ofMappings overlappingPair false noSpills).resolveMappings = some st' ∧
      st'.mappings = [] ∧ (∀ r < 4, st'.registerBlocked r = 0) ∧
      ∀ m ∈ overlappingPair,
        m.target.cells.map (executeAll (fun k _ => k) (fun c => c.1 + 100) st'.inserted) =
          m.source.words (fun k _ => k) (fun c => c.1 + 100) m.target.type := by
  refine @resolveMappings_parallelCopy fourRegisters Nat Nat overlappingPair false noSpills
    (by decide) ?_ ?_ _ _
  · intro m hm it hit
    simp only [overlappingPair, List.mem_cons, List.not_mem_nil, or_false] at hm
    rcases hm with rfl | rfl | rfl <;> cases hit <;> rfl
  · constructor
    case hole => exact nofun
    case inUse =>
      intro m hm n hn
      have hlt : ∀ m ∈ overlappingPair, ∀ n ∈ m.source.registers ++ m.target.registers, n < 4 := by
        decide
      exact ⟨hlt m hm n hn, nofun⟩
    case canonical => exact fun _ _ _ _ _ => nofun
    case parent =>
      intro m hm it hit m' hm' it' hit'
      simp only [overlappingPair, List.mem_cons, List.not_mem_nil, or_false] at hm hm'
      rcases hm with rfl | rfl | rfl <;> rcases hm' with rfl | rfl | rfl <;> cases hit <;>
        cases hit' <;> simp
    case target => exact fun _ _ _ _ _ => nofun
    case source => exact fun _ _ _ _ _ => nofun

end MoveResolver

end HotSpot.C1
