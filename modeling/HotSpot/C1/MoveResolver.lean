import HotSpot.Lib.ParallelMoves
import HotSpot.Runtime.Signature

/-! # The move resolver of the linear scan allocator

`MoveResolver` of `c1_LinearScan.cpp` orders the moves of a list of mappings. A number
below `nof_regs` is a register, any other a stack slot; a slot of two words is one
location, as it is for `verify_before_resolve`. The lists `_mapping_from`,
`_mapping_from_opr` and `_mapping_to` are one list of mappings.
-/

namespace HotSpot.C1

/-- What the platform says of registers. -/
structure Platform where
  /-- `LinearScan::nof_regs` -/
  nofRegs : Nat
  /-- Whether `num_physical_regs` is two. -/
  needsPair : BasicType → Bool

variable {pd : Platform} {K V : Type}

/-- What the resolver reads of an `Interval`. -/
structure Interval (pd : Platform) where
  regNum : Nat
  type : BasicType
  assignedReg : Nat
  /-- None for `any_reg`. -/
  assignedRegHi : Option Nat
  /-- The number of the split parent. -/
  splitParent : Nat
  /-- Only a value in two registers has a second number. -/
  pair : ∀ hi, assignedRegHi = some hi →
    pd.needsPair type = true ∧ assignedReg < pd.nofRegs ∧ hi < pd.nofRegs

namespace Interval

def registers (it : Interval pd) : List Nat := it.assignedReg :: it.assignedRegHi.toList

end Interval

/-- `_mapping_from`, or `_mapping_from_opr` where that is null. -/
inductive Source (pd : Platform) (K : Type) where
  | interval (it : Interval pd)
  | constant (opr : K)

namespace Source

def registers : Source pd K → List Nat
  | .interval it => it.registers
  | .constant _ => []

end Source

structure Mapping (pd : Platform) (K : Type) where
  source : Source pd K
  target : Interval pd

/-! ## The allocator -/

/-- What the resolver uses of `LinearScan`. -/
structure LinearScan where
  argcount : Nat
  maxSpills : Nat
  /-- None for `-1`. -/
  unusedSpillSlot : Option Nat
  /-- `_canonical_spill_slot` of a split parent, none for a negative one. -/
  canonicalSpillSlot : Nat → Option Nat
  /-- The length of `_intervals`. -/
  intervals : Nat
  bailedOut : Bool

/-- `type2spill_size` -/
def type2spillSize : BasicType → Nat
  | .double | .long => 2
  | _ => 1

namespace LinearScan

variable (pd)

/-- The number of a spill slot. -/
def slotNumber (scan : LinearScan) (spillSlot : Nat) : Nat :=
  spillSlot + pd.nofRegs + scan.argcount

def allocateSpillSlot (scan : LinearScan) (doubleWord : Bool) : Nat × LinearScan :=
  let (spillSlot, scan) :=
    if doubleWord then
      -- The hole because of the alignment is filled with the next single-word value.
      let scan :=
        if scan.maxSpills % 2 = 1 then
          { scan with
            unusedSpillSlot := some scan.maxSpills
            maxSpills := scan.maxSpills + 1 }
        else scan
      (scan.maxSpills, { scan with maxSpills := scan.maxSpills + 2 })
    else
      match scan.unusedSpillSlot with
      | some slot => (slot, { scan with unusedSpillSlot := none })
      | none => (scan.maxSpills, { scan with maxSpills := scan.maxSpills + 1 })
  let result := scan.slotNumber pd spillSlot
  (result, { scan with bailedOut := scan.bailedOut || decide (2000 < result) })

/-- The canonical spill slot of an interval, allocated if it has none. -/
def canonicalSlot (scan : LinearScan) (it : Interval pd) : Nat × LinearScan :=
  match scan.canonicalSpillSlot it.splitParent with
  | some slot => (slot, scan)
  | none =>
    let (slot, scan) := scan.allocateSpillSlot pd (type2spillSize it.type = 2)
    (slot, { scan with
      canonicalSpillSlot := Function.update scan.canonicalSpillSlot it.splitParent slot })

end LinearScan

/-! ## The resolver -/

/-- A move in the insertion buffer. -/
abbrev Move (pd : Platform) (K : Type) := Mapping pd K

structure MoveResolver (pd : Platform) (K : Type) where
  mappings : List (Mapping pd K)
  multipleReadsAllowed : Bool
  registerBlocked : Nat → Int
  /-- The moves inserted so far. -/
  inserted : List (Move pd K)
  allocator : LinearScan

namespace MoveResolver

/-- A resolver with mappings added; nothing is blocked before `resolve_mappings`. -/
def ofMappings (mappings : List (Mapping pd K)) (multipleReadsAllowed : Bool)
    (allocator : LinearScan) : MoveResolver pd K where
  mappings := mappings
  multipleReadsAllowed := multipleReadsAllowed
  registerBlocked := fun _ => 0
  inserted := []
  allocator := allocator

variable (st : MoveResolver pd K)

def fromIntervals : List (Interval pd) :=
  st.mappings.filterMap fun m =>
    match m.source with
    | .interval it => some it
    | .constant _ => none

/-- The assertions of `verify_before_resolve`. The loops over `used_regs` stop at the first
number that comes twice, and all numbers are inside the bit map. -/
def verifyBeforeResolve : Bool :=
  (st.multipleReadsAllowed ||
    decide (((st.fromIntervals.map (·.regNum)).Nodup) ∧
      (st.fromIntervals.flatMap Interval.registers).Nodup)) &&
  decide ((st.mappings.map (·.target.regNum)).Nodup) &&
  decide ((st.mappings.flatMap (·.target.registers)).Nodup) &&
  st.mappings.all (fun m => (m.source.registers ++ m.target.registers).all
    (· < pd.nofRegs + st.allocator.argcount + st.allocator.maxSpills)) &&
  st.mappings.all (fun m =>
    !(st.fromIntervals.any fun it =>
      decide (pd.nofRegs ≤ it.assignedReg) && it.assignedReg == m.target.assignedReg) ||
    match m.source with
    | .interval it => m.target.assignedReg == it.assignedReg
    | .constant _ => false)

def setRegisterBlocked (reg : Nat) (direction : Int) : MoveResolver pd K :=
  { st with registerBlocked :=
      Function.update st.registerBlocked reg (st.registerBlocked reg + direction) }

/-- `block_registers` and `unblock_registers`: the registers of an interval, not its slot. -/
def countRegisters (it : Interval pd) (direction : Int) : MoveResolver pd K :=
  it.registers.foldl
    (fun st reg => if reg < pd.nofRegs then st.setRegisterBlocked reg direction else st) st

def blockRegisters (it : Interval pd) : MoveResolver pd K := st.countRegisters it 1

def unblockRegisters (it : Interval pd) : MoveResolver pd K := st.countRegisters it (-1)

/-- Whether a register of the target is not blocked, or only by the source. -/
def isFree (source : Source pd K) (reg : Nat) : Bool :=
  !(decide (reg < pd.nofRegs) && (decide (1 < st.registerBlocked reg) ||
    (decide (st.registerBlocked reg = 1) && decide (reg ∉ source.registers))))

def saveToProcessMove (m : Mapping pd K) : Bool :=
  m.target.registers.all (st.isFree m.source)

def insertMove (m : Move pd K) : MoveResolver pd K := { st with inserted := st.inserted ++ [m] }

def blockSource : Source pd K → MoveResolver pd K
  | .interval it => st.blockRegisters it
  | .constant _ => st

def unblockSource : Source pd K → MoveResolver pd K
  | .interval it => st.unblockRegisters it
  | .constant _ => st

/-- Block all registers that are used as input operands of a move. -/
def blockAll : MoveResolver pd K := st.mappings.foldr (fun m st => st.blockSource m.source) st

/-- A mapping whose target is free: the move, and its registers are read no more. -/
def processMapping (i : Nat) (m : Mapping pd K) : MoveResolver pd K :=
  let st := (st.insertMove m).unblockSource m.source
  { st with mappings := st.mappings.eraseIdx i }

/-- The state of the loop over the mappings. -/
structure Pass (pd : Platform) (K : Type) where
  resolver : MoveResolver pd K
  processedInterval : Bool
  /-- None for `-1`. -/
  spillCandidate : Option Nat

def Pass.visit (p : Pass pd K) (i : Nat) : Pass pd K :=
  match p.resolver.mappings[i]? with
  | none => p
  | some m =>
    if p.resolver.saveToProcessMove m then
      { p with resolver := p.resolver.processMapping i m, processedInterval := true }
    else
      match m.source with
      | .interval it =>
        if it.assignedReg < pd.nofRegs then { p with spillCandidate := some i } else p
      | .constant _ => p

/-- `for (i = length - 1; i >= 0; i--)` -/
def Pass.run : Nat → Pass pd K → Pass pd K
  | 0, p => p
  | i + 1, p => Pass.run i (p.visit i)

/-- The interval in the canonical spill slot of another one. -/
def spillInterval (it : Interval pd) (regNum slot : Nat) : Interval pd where
  regNum := regNum
  type := it.type
  assignedReg := slot
  assignedRegHi := none
  splitParent := regNum
  pair := nofun

/-- A cycle: the source of the candidate is spilled to memory. -/
def spill (candidate : Nat) : Option (MoveResolver pd K) :=
  match st.mappings[candidate]? with
  | some ⟨.interval it, target⟩ =>
    let (slot, scan) := st.allocator.canonicalSlot pd it
    let spilled := spillInterval it scan.intervals slot
    let st := { st with allocator := { scan with intervals := scan.intervals + 1 } }
    let st := st.insertMove ⟨.interval it, spilled⟩
    let st := { st with mappings := st.mappings.set candidate ⟨.interval spilled, target⟩ }
    some (st.unblockRegisters it)
  | _ => none

/-- The loop of `resolve_mappings`; none if it has not ended after that many rounds, or
finds nothing to spill. The candidate is kept from round to round. -/
def resolveLoop : Nat → Option Nat → MoveResolver pd K → Option (MoveResolver pd K)
  | 0, _, st => if st.mappings.isEmpty then some st else none
  | fuel + 1, spillCandidate, st =>
    if st.mappings.isEmpty then some st
    else
      let p := Pass.run st.mappings.length ⟨st, false, spillCandidate⟩
      if p.processedInterval then resolveLoop fuel p.spillCandidate p.resolver
      else do
        let candidate ← p.spillCandidate
        let st ← p.resolver.spill candidate
        resolveLoop fuel p.spillCandidate st

-- Every round ends a mapping or takes the source of one out of its register.
def resolveMappings : Option (MoveResolver pd K) := do
  let st' ← resolveLoop (2 * st.mappings.length) none st.blockAll
  return { st' with multipleReadsAllowed := false }

end MoveResolver

/-! ## Running moves -/

/-- A word of a location: of a register, or one of the two of a slot. -/
abbrev Cell := Nat × Bool

/-- The words of a value, the low one first. -/
def Interval.cells (it : Interval pd) : List Cell :=
  if pd.needsPair it.type then
    [(it.assignedReg, false),
      match it.assignedRegHi with
      | some hi => (hi, false)
      | none => (it.assignedReg, true)]
  else [(it.assignedReg, false)]

/-- What a source holds as a value of a type, where `value` gives the words of constants. -/
def Source.words (value : K → Bool → V) (σ : Cell → V) (type : BasicType) :
    Source pd K → List V
  | .interval it => it.cells.map σ
  | .constant opr =>
    if pd.needsPair type then [value opr false, value opr true] else [value opr false]

/-- A move reads all words before it writes. -/
def Mapping.execute (value : K → Bool → V) (σ : Cell → V) (m : Move pd K) : Cell → V :=
  assign σ m.target.cells (m.source.words value σ m.target.type)

def executeAll (value : K → Bool → V) (σ : Cell → V) (moves : List (Move pd K)) : Cell → V :=
  moves.foldl (Mapping.execute value) σ

end HotSpot.C1

/-! ## Spill slots for the move resolver

Which slots are in use, and that a canonical spill slot, also one allocated to break a
cycle, belongs to the mappings of its interval only.
-/

namespace HotSpot.C1

variable {pd : Platform} {K : Type}

namespace LinearScan

/-- A register, or a slot that the allocator has given out or the caller has filled. -/
def InUse (pd : Platform) (scan : LinearScan) (n : Nat) : Prop :=
  n < pd.nofRegs + scan.argcount + scan.maxSpills ∧
    ∀ u, scan.unusedSpillSlot = some u → n ≠ scan.slotNumber pd u

/-- The hole is one of the slots. -/
def HoleBelow (scan : LinearScan) : Prop :=
  ∀ u, scan.unusedSpillSlot = some u → u < scan.maxSpills

/-- What an allocation gives. -/
structure Allocates (pd : Platform) (scan : LinearScan) (slot : Nat) (scan' : LinearScan) :
    Prop where
  nofRegs_le : pd.nofRegs ≤ slot
  fresh : ¬scan.InUse pd slot
  inUse : scan'.InUse pd slot
  keeps : ∀ n, scan.InUse pd n → scan'.InUse pd n
  hole : scan'.HoleBelow
  canonical : scan'.canonicalSpillSlot = scan.canonicalSpillSlot

variable {scan : LinearScan}

theorem allocateSpillSlot_allocates (hhole : scan.HoleBelow) (doubleWord : Bool) :
    scan.Allocates pd (scan.allocateSpillSlot pd doubleWord).1
      (scan.allocateSpillSlot pd doubleWord).2 := by
  obtain ⟨argcount, maxSpills, unused, canonical, intervals, bailedOut⟩ := scan
  cases doubleWord with
  | true =>
    by_cases hodd : maxSpills % 2 = 1
    · simp only [allocateSpillSlot, hodd, if_true]
      constructor <;> simp [InUse, HoleBelow, slotNumber] <;> grind
    · simp only [allocateSpillSlot, hodd, if_true, if_false]
      constructor <;> simp [InUse, HoleBelow, slotNumber] at hhole ⊢ <;> grind
  | false =>
    cases unused with
    | none =>
      simp only [allocateSpillSlot]
      constructor <;> simp [InUse, HoleBelow, slotNumber] <;> grind
    | some u =>
      simp only [allocateSpillSlot]
      constructor <;> simp [InUse, HoleBelow, slotNumber] at hhole ⊢ <;> grind

end LinearScan

/-- The canonical spill slots of the sources belong to no other mapping, unless it reads
the same interval. -/
structure SpillSlots (ms : List (Mapping pd K)) (scan : LinearScan) : Prop where
  hole : scan.HoleBelow
  inUse : ∀ m ∈ ms, ∀ n ∈ m.source.registers ++ m.target.registers, scan.InUse pd n
  canonical : ∀ m ∈ ms, ∀ it, m.source = .interval it → ∀ slot,
    scan.canonicalSpillSlot it.splitParent = some slot → pd.nofRegs ≤ slot ∧ scan.InUse pd slot
  /-- A slot still to be allocated belongs to no other mapping either. -/
  parent : ∀ m ∈ ms, ∀ it, m.source = .interval it → ∀ m' ∈ ms, ∀ it', m'.source = .interval it' →
    it'.splitParent = it.splitParent → it' = it
  target : ∀ m ∈ ms, ∀ it, m.source = .interval it → ∀ slot,
    scan.canonicalSpillSlot it.splitParent = some slot →
    ∀ m' ∈ ms, m' ≠ m → m'.target.assignedReg ≠ slot
  source : ∀ m ∈ ms, ∀ it, m.source = .interval it → ∀ slot,
    scan.canonicalSpillSlot it.splitParent = some slot →
    ∀ m' ∈ ms, ∀ it', m'.source = .interval it' → it' ≠ it →
      it'.assignedReg ≠ slot ∧ scan.canonicalSpillSlot it'.splitParent ≠ some slot

namespace SpillSlots

variable {ms : List (Mapping pd K)} {scan scan' : LinearScan} {slot : Nat}

theorem inUse_source (h : SpillSlots ms scan) {m : Mapping pd K} (hm : m ∈ ms) {it : Interval pd}
    (hit : m.source = .interval it) : scan.InUse pd it.assignedReg := by
  refine h.inUse m hm _ (List.mem_append_left _ ?_)
  rw [hit]
  exact List.mem_cons_self

theorem inUse_target (h : SpillSlots ms scan) {m : Mapping pd K} (hm : m ∈ ms) :
    scan.InUse pd m.target.assignedReg :=
  h.inUse m hm _ (List.mem_append_right _ List.mem_cons_self)

/-- A fresh slot becomes the canonical one of an interval that has none. -/
theorem allocate (h : SpillSlots ms scan) (halloc : scan.Allocates pd slot scan')
    (it : Interval pd) : SpillSlots ms { scan' with
      canonicalSpillSlot := Function.update scan'.canonicalSpillSlot it.splitParent slot } := by
  have hold : ∀ p s, Function.update scan'.canonicalSpillSlot it.splitParent (some slot) p =
      some s → (p = it.splitParent ∧ s = slot) ∨
        (p ≠ it.splitParent ∧ scan.canonicalSpillSlot p = some s) := by
    intro p s hs
    by_cases hp : p = it.splitParent
    · subst hp
      rw [Function.update_self] at hs
      exact .inl ⟨rfl, (Option.some.inj hs).symm⟩
    · rw [Function.update_of_ne hp, halloc.canonical] at hs
      exact .inr ⟨hp, hs⟩
  have hfresh : ∀ n, scan.InUse pd n → n ≠ slot := by
    rintro n hn rfl
    exact halloc.fresh hn
  constructor
  case hole => exact halloc.hole
  case inUse => exact fun m hm n hn => halloc.keeps n (h.inUse m hm n hn)
  case parent => exact h.parent
  case canonical =>
    intro m₁ hm₁ it₁ hit₁ s hs
    rcases hold _ _ hs with ⟨-, rfl⟩ | ⟨-, hs⟩
    · exact ⟨halloc.nofRegs_le, halloc.inUse⟩
    · obtain ⟨hle, huse⟩ := h.canonical m₁ hm₁ it₁ hit₁ s hs
      exact ⟨hle, halloc.keeps s huse⟩
  case target =>
    intro m₁ hm₁ it₁ hit₁ s hs m₂ hm₂ hne
    rcases hold _ _ hs with ⟨-, rfl⟩ | ⟨-, hs⟩
    · exact hfresh _ (h.inUse_target hm₂)
    · exact h.target m₁ hm₁ it₁ hit₁ s hs m₂ hm₂ hne
  case source =>
    intro m₁ hm₁ it₁ hit₁ s hs m₂ hm₂ it₂ hit₂ hne
    rcases hold _ _ hs with ⟨hp, rfl⟩ | ⟨-, hs₁⟩
    · refine ⟨hfresh _ (h.inUse_source hm₂ hit₂), fun hs₂ => ?_⟩
      rcases hold _ _ hs₂ with ⟨hp₂, -⟩ | ⟨-, hs₂⟩
      · exact hne (h.parent m₁ hm₁ it₁ hit₁ m₂ hm₂ it₂ hit₂ (hp₂.trans hp.symm))
      · exact hfresh _ (h.canonical m₂ hm₂ it₂ hit₂ _ hs₂).2 rfl
    · obtain ⟨hreg, hother⟩ := h.source m₁ hm₁ it₁ hit₁ s hs₁ m₂ hm₂ it₂ hit₂ hne
      refine ⟨hreg, fun hs₂ => ?_⟩
      rcases hold _ _ hs₂ with ⟨-, rfl⟩ | ⟨-, hs₂⟩
      · exact hfresh _ (h.canonical m₁ hm₁ it₁ hit₁ _ hs₁).2 rfl
      · exact hother hs₂

/-- `canonicalSlot` gives the interval its slot and keeps those of the others. -/
theorem canonicalSlot (h : SpillSlots ms scan) {it : Interval pd}
    (heq : scan.canonicalSlot pd it = (slot, scan')) :
    SpillSlots ms scan' ∧ scan'.canonicalSpillSlot it.splitParent = some slot ∧
      ∀ p s, scan.canonicalSpillSlot p = some s → scan'.canonicalSpillSlot p = some s := by
  unfold LinearScan.canonicalSlot at heq
  split at heq
  next s hs =>
    cases heq
    exact ⟨h, hs, fun _ _ hs => hs⟩
  next hnone =>
    have halloc := @LinearScan.allocateSpillSlot_allocates pd scan h.hole
      (type2spillSize it.type = 2)
    generalize scan.allocateSpillSlot pd (type2spillSize it.type = 2) = result at heq halloc
    obtain ⟨slot', allocated⟩ := result
    cases heq
    refine ⟨h.allocate halloc it, Function.update_self .., fun p s hs => ?_⟩
    have hp : p ≠ it.splitParent := by
      rintro rfl
      rw [hnone] at hs
      cases hs
    exact (Function.update_of_ne hp ..).trans (halloc.canonical ▸ hs)

end SpillSlots

end HotSpot.C1
