import HotSpot.Compiler.LivenessSound

/-! # The blocks of exception handlers

A block that starts at a handler carries the range of bcis that the handler is for. When blocks
are split, the range stays with the first half. The blocks start where control can come to or
ends, or where an exception range has a bound, and nowhere else.
-/

namespace HotSpot

open CiMethodBlocks (Scanned SameStarts)

/-- The blocks with the exception ranges of those that are handlers. -/
structure CiHandlerBlocks extends CiMethodBlocks where
  /-- `_ex_start_bci` and `_ex_limit_bci`; without them the block is no handler. -/
  exRange : Nat → Option (Nat × Nat)

/-! ## The constructor -/

namespace CiHandlerBlocks

def setControlBci (s : CiHandlerBlocks) (i bci : Nat) : CiHandlerBlocks :=
  { s with toCiMethodBlocks := s.toCiMethodBlocks.setControlBci i bci }

def setLimitBci (s : CiHandlerBlocks) (i limit : Nat) : CiHandlerBlocks :=
  { s with toCiMethodBlocks := s.toCiMethodBlocks.setLimitBci i limit }

/-- `split_block_at` moves the range from the former block to the new one. -/
def splitBlockAt (s : CiHandlerBlocks) (bci former : Nat) : CiHandlerBlocks where
  toCiMethodBlocks := s.toCiMethodBlocks.splitBlockAt bci former
  exRange := Function.update (Function.update s.exRange s.numBlocks (s.exRange former)) former none

def makeBlockAt (s : CiHandlerBlocks) (bci : Nat) : CiHandlerBlocks :=
  match s.bciToBlock bci with
  | none =>
    { toCiMethodBlocks := s.toCiMethodBlocks.makeBlockAt bci
      exRange := Function.update s.exRange s.numBlocks none }
  | some cb => if (s.blocks cb).startBci = bci then s else s.splitBlockAt bci cb

def makeBlocksAt (s : CiHandlerBlocks) (bcis : List Nat) : CiHandlerBlocks :=
  bcis.foldl makeBlockAt s

def makeNextBlock (codeSize : Nat) (s : CiHandlerBlocks) (nextBci : Nat) : CiHandlerBlocks :=
  if nextBci < codeSize then s.makeBlockAt nextBci else s

/-- The blocks that an instruction calls for. -/
def makeBlocksFor (codeSize : Nat) (s : CiHandlerBlocks) (cur : Nat) (i : Instruction) :
    CiHandlerBlocks :=
  match i.code.control with
  | .fallThrough => s
  | .branch dest => ((s.setControlBci cur i.bci).makeBlockAt i.nextBci).makeBlockAt dest
  | .goto dest =>
    ((s.setControlBci cur i.bci).makeNextBlock codeSize i.nextBci).makeBlockAt dest
  | .switch default dests =>
    (((s.setControlBci cur i.bci).makeBlocksAt dests).makeBlockAt default).makeNextBlock
      codeSize i.nextBci
  | .jsr dest => ((s.setControlBci cur i.bci).makeBlockAt i.nextBci).makeBlockAt dest
  | .ret => (s.setControlBci cur i.bci).makeNextBlock codeSize i.nextBci
  | .exit => (s.setControlBci cur i.bci).makeNextBlock codeSize i.nextBci

def enterBlock (s : CiHandlerBlocks) (cur bci : Nat) : CiHandlerBlocks × Nat :=
  ({ s with toCiMethodBlocks := (s.toCiMethodBlocks.enterBlock cur bci).1 },
    (s.toCiMethodBlocks.enterBlock cur bci).2)

/-- One iteration of `do_analysis`, with the current block. -/
def analyze (codeSize : Nat) (state : CiHandlerBlocks × Nat) (i : Instruction) :
    CiHandlerBlocks × Nat :=
  let (s, cur) := state.1.enterBlock state.2 i.bci
  (s.makeBlocksFor codeSize cur i, cur)

def doAnalysis (m : CiMethod) (s : CiHandlerBlocks) : CiHandlerBlocks :=
  let (s, cur) := m.instructions.foldl (analyze m.codeSize) (s, (s.bciToBlock 0).getD 0)
  s.setLimitBci cur m.codeSize

/-- Several handlers can have the same block: its range covers those of all of them. -/
def extendRange (old : Option (Nat × Nat)) (start limit : Nat) : Nat × Nat :=
  match old with
  | none => (start, limit)
  | some (oldStart, oldLimit) =>
    (if oldStart < start then oldStart else start, if limit < oldLimit then oldLimit else limit)

def setExceptionRange (s : CiHandlerBlocks) (eb start limit : Nat) : CiHandlerBlocks :=
  { s with
    exRange := Function.update s.exRange eb (some (extendRange (s.exRange eb) start limit)) }

/-- The blocks for an exception handler. -/
def makeHandlerBlocks (codeSize : Nat) (s : CiHandlerBlocks) (h : CiExceptionHandler) :
    CiHandlerBlocks :=
  let s := s.makeBlockAt h.handlerBci
  let eb := (s.bciToBlock h.handlerBci).getD 0
  ((s.makeBlockAt h.start).makeNextBlock codeSize h.limit).setExceptionRange eb h.start h.limit

/-- The constructor, without the marks of blocks that have a handler. -/
def new (m : CiMethod) : CiHandlerBlocks :=
  let initial : CiHandlerBlocks :=
    { blocks := fun _ => ⟨0, 0, none⟩
      numBlocks := 1
      bciToBlock := Function.update (fun _ => none) 0 (some 0)
      exRange := fun _ => none }
  doAnalysis m (m.handlers.foldl (makeHandlerBlocks m.codeSize) initial)

/-! ## The blocks without the ranges -/

variable (s : CiHandlerBlocks)

@[simp] theorem toBlocks_makeBlockAt (bci : Nat) :
    (s.makeBlockAt bci).toCiMethodBlocks = s.toCiMethodBlocks.makeBlockAt bci := by
  unfold makeBlockAt
  cases hmap : s.bciToBlock bci with
  | none => rfl
  | some cb =>
    simp only [CiMethodBlocks.makeBlockAt, hmap]
    split <;> rfl

@[simp] theorem toBlocks_makeBlocksAt (bcis : List Nat) :
    (s.makeBlocksAt bcis).toCiMethodBlocks = s.toCiMethodBlocks.makeBlocksAt bcis := by
  induction bcis generalizing s with
  | nil => rfl
  | cons bci bcis ih =>
    have hfirst := ih (s.makeBlockAt bci)
    rwa [toBlocks_makeBlockAt] at hfirst

@[simp] theorem toBlocks_makeNextBlock (codeSize nextBci : Nat) :
    (s.makeNextBlock codeSize nextBci).toCiMethodBlocks =
      s.toCiMethodBlocks.makeNextBlock codeSize nextBci := by
  unfold makeNextBlock CiMethodBlocks.makeNextBlock
  split
  next => exact s.toBlocks_makeBlockAt nextBci
  next => rfl

@[simp] theorem toBlocks_setControlBci (i bci : Nat) :
    (s.setControlBci i bci).toCiMethodBlocks = s.toCiMethodBlocks.setControlBci i bci := rfl

@[simp] theorem toBlocks_makeBlocksFor (codeSize cur : Nat) (i : Instruction) :
    (s.makeBlocksFor codeSize cur i).toCiMethodBlocks =
      s.toCiMethodBlocks.makeBlocksFor codeSize cur i := by
  unfold makeBlocksFor CiMethodBlocks.makeBlocksFor
  cases i.code.control <;> simp

theorem toBlocks_analyze (codeSize cur : Nat) (i : Instruction) :
    (analyze codeSize (s, cur) i).1.toCiMethodBlocks =
        (CiMethodBlocks.analyze codeSize (s.toCiMethodBlocks, cur) i).1 ∧
      (analyze codeSize (s, cur) i).2 =
        (CiMethodBlocks.analyze codeSize (s.toCiMethodBlocks, cur) i).2 :=
  ⟨toBlocks_makeBlocksFor _ _ _ _, rfl⟩

theorem toBlocks_foldl_analyze (codeSize cur : Nat) (l : List Instruction) :
    (l.foldl (analyze codeSize) (s, cur)).1.toCiMethodBlocks =
        (l.foldl (CiMethodBlocks.analyze codeSize) (s.toCiMethodBlocks, cur)).1 ∧
      (l.foldl (analyze codeSize) (s, cur)).2 =
        (l.foldl (CiMethodBlocks.analyze codeSize) (s.toCiMethodBlocks, cur)).2 := by
  induction l generalizing s cur with
  | nil => exact ⟨rfl, rfl⟩
  | cons i l ih =>
    obtain ⟨hblocks, hcur⟩ := s.toBlocks_analyze codeSize cur i
    have hrest := ih (analyze codeSize (s, cur) i).1 (analyze codeSize (s, cur) i).2
    rw [hblocks, hcur] at hrest
    exact hrest

theorem toBlocks_doAnalysis (m : CiMethod) :
    (doAnalysis m s).toCiMethodBlocks = CiMethodBlocks.doAnalysis m s.toCiMethodBlocks := by
  obtain ⟨hblocks, hcur⟩ := s.toBlocks_foldl_analyze m.codeSize ((s.bciToBlock 0).getD 0)
    m.instructions
  change (CiMethodBlocks.setLimitBci _ _ _) = CiMethodBlocks.setLimitBci _ _ _
  rw [hblocks, hcur]

theorem toBlocks_foldl_makeHandlerBlocks (codeSize : Nat) (handlers : List CiExceptionHandler) :
    (handlers.foldl (makeHandlerBlocks codeSize) s).toCiMethodBlocks =
      handlers.foldl (CiMethodBlocks.makeHandlerBlocks codeSize) s.toCiMethodBlocks := by
  induction handlers generalizing s with
  | nil => rfl
  | cons h handlers ih =>
    have hfirst : (s.makeHandlerBlocks codeSize h).toCiMethodBlocks =
        s.toCiMethodBlocks.makeHandlerBlocks codeSize h := by
      unfold makeHandlerBlocks CiMethodBlocks.makeHandlerBlocks setExceptionRange
      simp
    rw [List.foldl_cons, List.foldl_cons, ih, hfirst]

/-- The ranges do not change what the blocks are. -/
theorem toBlocks_new (m : CiMethod) : (new m).toCiMethodBlocks = CiMethodBlocks.new m := by
  unfold new CiMethodBlocks.new
  rw [toBlocks_doAnalysis, toBlocks_foldl_makeHandlerBlocks]

/-! ## The starts and the ranges of the blocks -/

/-- A block starts at the bci. -/
abbrev Starts (s : CiHandlerBlocks) (bci : Nat) : Prop := s.toCiMethodBlocks.IsBlockStart bci

/-- The range of a block depends on where it starts, and it starts where there is a range. -/
structure Tracks (ranges : Nat → Option (Nat × Nat)) (s : CiHandlerBlocks) : Prop where
  exRange_eq : ∀ i < s.numBlocks, s.exRange i = ranges (s.blocks i).startBci
  isBlockStart : ∀ bci, ranges bci ≠ none → s.Starts bci

variable {s} {m : CiMethod} {p q : Nat} {ranges : Nat → Option (Nat × Nat)}

theorem Tracks.eq_none (h : Tracks ranges s) {bci : Nat} (hbci : ¬ s.Starts bci) :
    ranges bci = none := by
  by_contra hne
  exact hbci (h.isBlockStart bci hne)

theorem Tracks.of_sameStarts (h : Tracks ranges s) {s' : CiHandlerBlocks}
    (hsame : SameStarts s.toCiMethodBlocks s'.toCiMethodBlocks) (hranges : s'.exRange = s.exRange) :
    Tracks ranges s' where
  exRange_eq i hi := by
    rw [hsame.numBlocks] at hi
    rw [hranges, hsame.startBci]
    exact h.exRange_eq i hi
  isBlockStart bci hne := (hsame.isBlockStart bci).2 (h.isBlockStart bci hne)

/-- A new block has no range. -/
theorem Tracks.append (h : Tracks ranges s) {t : Nat} (hmap : s.bciToBlock t = none)
    (ht : ¬ s.Starts t) : Tracks ranges (s.makeBlockAt t) := by
  have hmake : s.makeBlockAt t = ⟨s.toCiMethodBlocks.appendBlock t,
      Function.update s.exRange s.numBlocks none⟩ := by
    rw [makeBlockAt, hmap]
    simp only [CiMethodBlocks.makeBlockAt, hmap, CiMethodBlocks.appendBlock]
  rw [hmake]
  refine ⟨fun i hi => ?_, fun bci hne => ?_⟩
  · rcases CiMethodBlocks.appendBlock_cases hi with ⟨hi, hblock⟩ | ⟨rfl, hblock⟩
    · simp only [hblock, Function.update_of_ne hi.ne]
      exact h.exRange_eq i hi
    · simp only [hblock, Function.update_self]
      exact (h.eq_none ht).symm
  · exact (CiMethodBlocks.isBlockStart_appendBlock bci).2 (.inl (h.isBlockStart bci hne))

/-- The first half has the start and the range of the former block. -/
theorem Tracks.split (h : Tracks ranges s) {cb t : Nat} (hcb : cb < s.numBlocks)
    (ht : ¬ s.Starts t) : Tracks ranges (s.splitBlockAt t cb) := by
  refine ⟨fun i hi => ?_, fun bci hne => ?_⟩
  · rcases CiMethodBlocks.splitBlockAt_cases hcb hi with ⟨rfl, hb⟩ | ⟨rfl, hb⟩ | ⟨hi, hne, hb⟩
    · simp only [splitBlockAt, hb, Function.update_self]
      exact (h.eq_none ht).symm
    · simp only [splitBlockAt, hb, Function.update_of_ne hcb.ne', Function.update_self]
      exact h.exRange_eq cb hcb
    · simp only [splitBlockAt, hb, Function.update_of_ne hne, Function.update_of_ne hi.ne]
      exact h.exRange_eq i hi
  · exact (CiMethodBlocks.isBlockStart_split hcb bci).2 (.inl (h.isBlockStart bci hne))

theorem Tracks.makeBlockAt (h : Tracks ranges s) (hs : Scanned m s.toCiMethodBlocks p q) {t : Nat}
    (ht : m.IsStart t) : Tracks ranges (s.makeBlockAt t) := by
  cases hmap : s.bciToBlock t with
  | none =>
    refine h.append hmap ?_
    rintro ⟨i, hi, hstart⟩
    have hi' : s.bciToBlock t = some i := by
      rcases Nat.lt_or_ge t p with hlt | hge
      · refine (hs.behind t hlt i).2 ⟨ht, hi, hstart.le, fun j _ hle => ?_⟩
        rwa [hstart]
      · exact (hs.ahead t hge i).2 ⟨hi, hstart⟩
    rw [hmap] at hi'
    cases hi'
  | some cb =>
    simp only [CiHandlerBlocks.makeBlockAt, hmap]
    split
    next => exact h
    next hne =>
      have hlt : t < p := by
        by_contra hge
        exact hne ((hs.ahead t (by omega) cb).1 hmap).2
      obtain ⟨-, hcontains⟩ := (hs.behind t hlt cb).1 hmap
      refine h.split hcontains.lt ?_
      rintro ⟨j, hj, hstart⟩
      have hle := hcontains.last j hj hstart.le
      have hle' := hcontains.le
      omega

/-- Several blocks are made. -/
theorem makeBlocksAt_spec (hv : m.Confined) (hq : q ≤ p) {bcis : List Nat}
    (hs : Scanned m s.toCiMethodBlocks p q) (ht : ∀ t ∈ bcis, m.IsStart t) :
    Scanned m (s.makeBlocksAt bcis).toCiMethodBlocks p q ∧
      (∀ bci, (s.makeBlocksAt bcis).Starts bci ↔ s.Starts bci ∨ bci ∈ bcis) ∧
      ∀ ranges, Tracks ranges s → Tracks ranges (s.makeBlocksAt bcis) := by
  induction bcis generalizing s with
  | nil => exact ⟨hs, fun bci => by simp [makeBlocksAt], fun _ h => h⟩
  | cons t bcis ih =>
    have hstart := ht t List.mem_cons_self
    obtain ⟨hfirst, hmakes⟩ := hs.makeBlockAt hv hq hstart
    rw [← toBlocks_makeBlockAt] at hfirst hmakes
    obtain ⟨hrest, hstarts, htracks⟩ := ih hfirst fun t' ht' => ht t' (List.mem_cons_of_mem _ ht')
    refine ⟨hrest, fun bci => ?_, fun ranges h => htracks ranges (h.makeBlockAt hs hstart)⟩
    have hbci := (hstarts bci).trans (or_congr_left (hmakes.starts bci))
    rw [List.mem_cons, ← or_assoc]
    exact hbci

/-! ## Instructions -/

end CiHandlerBlocks

/-- The bci behind an instruction, if the method goes on there. -/
def Instruction.behind (codeSize : Nat) (i : Instruction) : List Nat :=
  if i.nextBci < codeSize then [i.nextBci] else []

/-- Where an instruction has blocks made, in this order. -/
def Instruction.newStarts (codeSize : Nat) (i : Instruction) : List Nat :=
  match i.code.control with
  | .fallThrough => []
  | .branch dest => [i.nextBci, dest]
  | .goto dest => i.behind codeSize ++ [dest]
  | .switch default dests => dests ++ default :: i.behind codeSize
  | .jsr dest => [i.nextBci, dest]
  | .ret => i.behind codeSize
  | .exit => i.behind codeSize

theorem Instruction.mem_behind {codeSize bci : Nat} {i : Instruction} :
    bci ∈ i.behind codeSize ↔ bci = i.nextBci ∧ i.nextBci < codeSize := by
  unfold behind
  split
  next hlt => simp [hlt]
  next hge => simp [hge]

theorem Instruction.mem_newStarts {m : CiMethod} (hv : m.Confined) {i : Instruction}
    (hi : i ∈ m.instructions) (bci : Nat) : bci ∈ i.newStarts m.codeSize ↔
      bci ∈ i.code.control.targets ∨
        (i.code.control ≠ .fallThrough ∧ bci = i.nextBci ∧ i.nextBci < m.codeSize) := by
  have hresumes := hv.resumes i hi
  unfold newStarts
  cases hcontrol : i.code.control with
  | fallThrough => simp [CiControl.targets]
  | branch dest =>
    have hlt := hresumes (by rw [hcontrol]; rfl)
    simp [CiControl.targets, hlt, or_comm]
  | goto dest => simp [CiControl.targets, mem_behind, or_comm]
  | switch default dests =>
    simp only [List.mem_append, List.mem_cons, mem_behind, CiControl.targets]
    simp only [ne_eq, reduceCtorEq, not_false_eq_true, true_and]
    tauto
  | jsr dest =>
    have hlt := hresumes (by rw [hcontrol]; rfl)
    simp [CiControl.targets, hlt, or_comm]
  | ret => simp [CiControl.targets, mem_behind]
  | exit => simp [CiControl.targets, mem_behind]

namespace CiHandlerBlocks

variable {s : CiHandlerBlocks} {m : CiMethod} {p q cur : Nat} {ranges : Nat → Option (Nat × Nat)}
  {i : Instruction}

theorem makeNextBlock_eq (codeSize : Nat) :
    s.makeNextBlock codeSize i.nextBci = s.makeBlocksAt (i.behind codeSize) := by
  unfold makeNextBlock Instruction.behind
  split <;> rfl

/-- An instruction notes its transfer of control and has blocks made one after another. -/
theorem makeBlocksFor_eq (codeSize : Nat) (hcontrol : i.code.control ≠ .fallThrough) :
    s.makeBlocksFor codeSize cur i =
      (s.setControlBci cur i.bci).makeBlocksAt (i.newStarts codeSize) := by
  unfold makeBlocksFor Instruction.newStarts
  cases hkind : i.code.control with
  | fallThrough => exact absurd hkind hcontrol
  | branch dest => rfl
  | goto dest =>
    simp only [makeNextBlock_eq, makeBlocksAt, List.foldl_append]
    rfl
  | switch default dests =>
    simp only [makeNextBlock_eq, makeBlocksAt, List.foldl_append]
    rfl
  | jsr dest => rfl
  | ret => exact makeNextBlock_eq codeSize
  | exit => exact makeNextBlock_eq codeSize

/-- One instruction: its starts are added, and the ranges stay with theirs. -/
theorem analyze_spec (h : CiMethodBlocks.Analyzed m i.bci s.toCiMethodBlocks cur)
    (hv : m.Confined) (hi : i ∈ m.instructions) :
    (∀ bci, (analyze m.codeSize (s, cur) i).1.Starts bci ↔
        s.Starts bci ∨ bci ∈ i.newStarts m.codeSize) ∧
      ∀ ranges, Tracks ranges s → Tracks ranges (analyze m.codeSize (s, cur) i).1 := by
  obtain ⟨hscanned, hcontains, hsame⟩ := h.scanned.enterBlock hv hi h.current
    fun a ha hcontrol hnext => by
      have hbounds := hv.contiguous.bounds ha
      have hbounds' := hv.contiguous.bounds hi
      rw [← hnext]
      exact h.ends a ha (by omega) hcontrol (by omega)
  have hentered : SameStarts s.toCiMethodBlocks (s.enterBlock cur i.bci).1.toCiMethodBlocks := hsame
  have hanalyze : (analyze m.codeSize (s, cur) i).1 =
      (s.enterBlock cur i.bci).1.makeBlocksFor m.codeSize (s.enterBlock cur i.bci).2 i := rfl
  rw [hanalyze]
  by_cases hcontrol : i.code.control = .fallThrough
  · have hstay : (s.enterBlock cur i.bci).1.makeBlocksFor m.codeSize (s.enterBlock cur i.bci).2 i =
        (s.enterBlock cur i.bci).1 := by rw [makeBlocksFor, hcontrol]
    have hnone : i.newStarts m.codeSize = [] := by rw [Instruction.newStarts, hcontrol]
    rw [hstay, hnone]
    refine ⟨fun bci => ?_, fun ranges ht => ht.of_sameStarts hentered rfl⟩
    rw [List.mem_nil_iff, or_false]
    exact hsame.isBlockStart bci
  · rw [makeBlocksFor_eq m.codeSize hcontrol]
    have hnoted : Scanned m ((s.enterBlock cur i.bci).1.setControlBci (s.enterBlock cur i.bci).2
        i.bci).toCiMethodBlocks i.nextBci i.nextBci :=
      hscanned.setControlBci hv hi hcontains hcontrol
    have hstart : ∀ t ∈ i.newStarts m.codeSize, m.IsStart t := by
      intro t ht
      rcases (Instruction.mem_newStarts hv hi t).1 ht with ht | ⟨-, rfl, hlt⟩
      · exact hv.targets i hi t ht
      · obtain ⟨a, ha, hbci⟩ := hv.contiguous.next_start hi hlt
        exact ⟨a, ha, hbci⟩
    have hcontrolled : SameStarts (s.enterBlock cur i.bci).1.toCiMethodBlocks
        ((s.enterBlock cur i.bci).1.setControlBci (s.enterBlock cur i.bci).2
          i.bci).toCiMethodBlocks := CiMethodBlocks.sameStarts_setControlBci i.bci
    obtain ⟨-, hstarts, htracks⟩ := makeBlocksAt_spec hv le_rfl hnoted hstart
    refine ⟨fun bci => ?_, fun ranges ht => htracks ranges ?_⟩
    · rw [hstarts]
      exact or_congr_left ((hcontrolled.isBlockStart bci).trans (hentered.isBlockStart bci))
    · exact (ht.of_sameStarts hentered rfl).of_sameStarts hcontrolled rfl

/-- The rest of the instructions. -/
theorem foldl_analyze_spec (hv : m.Confined) {l : List Instruction} {stop : Nat}
    (hl : ∀ i ∈ l, i ∈ m.instructions) (hcontiguous : Contiguous p l stop)
    (h : CiMethodBlocks.Analyzed m p s.toCiMethodBlocks cur) :
    (∀ bci, (l.foldl (analyze m.codeSize) (s, cur)).1.Starts bci ↔
        s.Starts bci ∨ ∃ i ∈ l, bci ∈ i.newStarts m.codeSize) ∧
      ∀ ranges, Tracks ranges s → Tracks ranges (l.foldl (analyze m.codeSize) (s, cur)).1 := by
  induction l generalizing p s cur with
  | nil => exact ⟨fun bci => by simp, fun _ ht => ht⟩
  | cons i l ih =>
    obtain ⟨rfl, -, hrest⟩ := hcontiguous
    have hi := hl i List.mem_cons_self
    obtain ⟨hnext, -⟩ := h.analyze hv hi
    obtain ⟨hblocks, hcur⟩ := s.toBlocks_analyze m.codeSize cur i
    rw [← hblocks, ← hcur] at hnext
    obtain ⟨hstarts, htracks⟩ := analyze_spec h hv hi
    obtain ⟨hstarts', htracks'⟩ :=
      ih (fun j hj => hl j (List.mem_cons_of_mem _ hj)) hrest hnext
    refine ⟨fun bci => ?_, fun ranges ht => htracks' ranges (htracks ranges ht)⟩
    rw [List.foldl_cons, hstarts' bci, hstarts bci]
    simp only [List.mem_cons, exists_eq_or_imp, or_assoc]

/-! ## Handlers -/

/-- Before the scan blocks are only added. -/
theorem startBci_makeBlockAt (hs : Scanned m s.toCiMethodBlocks 0 0) (t : Nat) {j : Nat}
    (hj : j < s.numBlocks) : j < (s.makeBlockAt t).numBlocks ∧
      ((s.makeBlockAt t).blocks j).startBci = (s.blocks j).startBci := by
  cases hmap : s.bciToBlock t with
  | none =>
    have hmake : (s.makeBlockAt t).toCiMethodBlocks = s.toCiMethodBlocks.appendBlock t := by
      simp only [toBlocks_makeBlockAt, CiMethodBlocks.makeBlockAt, hmap,
        CiMethodBlocks.appendBlock]
    rw [hmake, CiMethodBlocks.blocks_appendBlock hj]
    exact ⟨Nat.lt_succ_of_lt hj, rfl⟩
  | some cb =>
    have hstart := ((hs.ahead t (Nat.zero_le t) cb).1 hmap).2
    simp only [makeBlockAt, hmap, if_pos hstart]
    exact ⟨hj, trivial⟩

theorem startBci_makeBlocksAt (hv : m.Confined) {bcis : List Nat}
    (hs : Scanned m s.toCiMethodBlocks 0 0) (ht : ∀ t ∈ bcis, m.IsStart t) {j : Nat}
    (hj : j < s.numBlocks) : j < (s.makeBlocksAt bcis).numBlocks ∧
      ((s.makeBlocksAt bcis).blocks j).startBci = (s.blocks j).startBci := by
  induction bcis generalizing s with
  | nil => exact ⟨hj, rfl⟩
  | cons t bcis ih =>
    have hfirst := (hs.makeBlockAt hv le_rfl (ht t List.mem_cons_self)).1
    rw [← toBlocks_makeBlockAt] at hfirst
    obtain ⟨hj', hstart⟩ := startBci_makeBlockAt hs t hj
    obtain ⟨hlt, hstart'⟩ := ih hfirst (fun t' ht' => ht t' (List.mem_cons_of_mem _ ht')) hj'
    exact ⟨hlt, hstart'.trans hstart⟩

/-- Where a handler has blocks made. -/
def handlerStarts (codeSize : Nat) (h : CiExceptionHandler) : List Nat :=
  h.handlerBci :: h.start :: if h.limit < codeSize then [h.limit] else []

/-- A handler adds its range to that of its block. -/
def addRange (ranges : Nat → Option (Nat × Nat)) (h : CiExceptionHandler) :
    Nat → Option (Nat × Nat) :=
  Function.update ranges h.handlerBci
    (some (extendRange (ranges h.handlerBci) h.start h.limit))

theorem handlerStarts_isStart (hv : m.Confined) {h : CiExceptionHandler} (hh : h ∈ m.handlers) :
    ∀ t ∈ handlerStarts m.codeSize h, m.IsStart t := by
  intro t ht
  unfold handlerStarts at ht
  rcases List.mem_cons.1 ht with rfl | ht
  · exact hv.handlerBci h hh
  rcases List.mem_cons.1 ht with rfl | ht
  · exact hv.handlerStart h hh
  split_ifs at ht with hlt
  · rw [List.mem_singleton.1 ht]
    exact (hv.handlerLimit h hh).resolve_right (by omega)
  · cases ht

theorem makeHandlerBlocks_spec (hv : m.Confined) {h : CiExceptionHandler} (hh : h ∈ m.handlers)
    (hs : Scanned m s.toCiMethodBlocks 0 0) (ht : Tracks ranges s) :
    Scanned m (s.makeHandlerBlocks m.codeSize h).toCiMethodBlocks 0 0 ∧
      (∀ bci, (s.makeHandlerBlocks m.codeSize h).Starts bci ↔
        s.Starts bci ∨ bci ∈ handlerStarts m.codeSize h) ∧
      Tracks (addRange ranges h) (s.makeHandlerBlocks m.codeSize h) := by
  have hstart := handlerStarts_isStart hv hh
  have hmade : ((s.makeBlockAt h.handlerBci).makeBlockAt h.start).makeNextBlock m.codeSize h.limit =
      s.makeBlocksAt (handlerStarts m.codeSize h) := by
    unfold handlerStarts makeNextBlock
    split <;> rfl
  have hrest : s.makeBlocksAt (handlerStarts m.codeSize h) =
      (s.makeBlockAt h.handlerBci).makeBlocksAt (handlerStarts m.codeSize h).tail := rfl
  obtain ⟨hscanned, hstarts, htracks⟩ := makeBlocksAt_spec hv le_rfl hs hstart
  have htracked := htracks ranges ht
  -- The block of the handler is found when it has been made.
  obtain ⟨hfirst, hmakes⟩ := hs.makeBlockAt hv le_rfl (hstart h.handlerBci List.mem_cons_self)
  rw [← toBlocks_makeBlockAt] at hfirst hmakes
  obtain ⟨eb, heb, hebstart⟩ := (hmakes.starts h.handlerBci).2 (.inr rfl)
  have hmap := (hfirst.ahead h.handlerBci (Nat.zero_le _) eb).2 ⟨heb, hebstart⟩
  obtain ⟨heb', hebstart'⟩ := startBci_makeBlocksAt hv hfirst
    (fun t ht => hstart t (List.mem_of_mem_tail ht)) heb
  rw [← hrest] at heb' hebstart'
  have hdone : s.makeHandlerBlocks m.codeSize h =
      (s.makeBlocksAt (handlerStarts m.codeSize h)).setExceptionRange eb h.start h.limit := by
    simp only [makeHandlerBlocks, hmap, Option.getD_some, hmade]
  rw [hdone]
  generalize s.makeBlocksAt (handlerStarts m.codeSize h) = s' at *
  refine ⟨hscanned, hstarts, fun i hi => ?_, fun bci hne => ?_⟩
  · have hi' : i < s'.numBlocks := hi
    by_cases hieb : i = eb
    · subst hieb
      simp only [setExceptionRange, Function.update_self, hebstart', hebstart, addRange,
        htracked.exRange_eq i hi']
    · have hother : (s'.blocks i).startBci ≠ h.handlerBci := fun heq =>
        hieb (hscanned.inj i hi' eb heb' (heq.trans (hebstart'.trans hebstart).symm))
      simp only [setExceptionRange, Function.update_of_ne hieb, addRange,
        Function.update_of_ne hother]
      exact htracked.exRange_eq i hi'
  · by_cases hbci : bci = h.handlerBci
    · subst hbci
      exact ⟨eb, heb', hebstart'.trans hebstart⟩
    · rw [addRange, Function.update_of_ne hbci] at hne
      exact htracked.isBlockStart bci hne

theorem foldl_makeHandlerBlocks_spec (hv : m.Confined) {handlers : List CiExceptionHandler}
    (hh : ∀ h ∈ handlers, h ∈ m.handlers) (hs : Scanned m s.toCiMethodBlocks 0 0)
    (ht : Tracks ranges s) :
    Scanned m (handlers.foldl (makeHandlerBlocks m.codeSize) s).toCiMethodBlocks 0 0 ∧
      (∀ bci, (handlers.foldl (makeHandlerBlocks m.codeSize) s).Starts bci ↔
        s.Starts bci ∨ ∃ h ∈ handlers, bci ∈ handlerStarts m.codeSize h) ∧
      Tracks (handlers.foldl addRange ranges)
        (handlers.foldl (makeHandlerBlocks m.codeSize) s) := by
  induction handlers generalizing s ranges with
  | nil => exact ⟨hs, fun bci => by simp, ht⟩
  | cons h handlers ih =>
    obtain ⟨hs', hstarts, ht'⟩ := makeHandlerBlocks_spec hv (hh h List.mem_cons_self) hs ht
    obtain ⟨hend, hstarts', htracks⟩ :=
      ih (fun h' hh' => hh h' (List.mem_cons_of_mem _ hh')) hs' ht'
    refine ⟨hend, fun bci => ?_, htracks⟩
    rw [List.foldl_cons, hstarts' bci, hstarts bci]
    simp only [List.mem_cons, exists_eq_or_imp, or_assoc]

/-! ## The range of a handler -/

/-- The range from the first start to the last limit of the handlers at a bci. -/
structure IsExceptionRange (handlers : List CiExceptionHandler) (bci : Nat) (range : Nat × Nat) :
    Prop where
  start_mem : ∃ h ∈ handlers, h.handlerBci = bci ∧ h.start = range.1
  start_le : ∀ h ∈ handlers, h.handlerBci = bci → range.1 ≤ h.start
  limit_mem : ∃ h ∈ handlers, h.handlerBci = bci ∧ h.limit = range.2
  le_limit : ∀ h ∈ handlers, h.handlerBci = bci → h.limit ≤ range.2

/-- What is known of the block of a handler. -/
def RangeOf (handlers : List CiExceptionHandler) (bci : Nat) : Option (Nat × Nat) → Prop
  | none => ∀ h ∈ handlers, h.handlerBci ≠ bci
  | some range => IsExceptionRange handlers bci range

theorem rangeOf_addRange {handlers : List CiExceptionHandler} {h : CiExceptionHandler}
    (hranges : ∀ bci, RangeOf handlers bci (ranges bci)) (bci : Nat) :
    RangeOf (handlers ++ [h]) bci (addRange ranges h bci) := by
  have hold := hranges bci
  unfold addRange
  by_cases hbci : bci = h.handlerBci
  · subst hbci
    rw [Function.update_self]
    unfold extendRange
    split
    next hnone =>
      rw [hnone] at hold
      refine ⟨⟨h, by simp, rfl, rfl⟩, ?_, ⟨h, by simp, rfl, rfl⟩, ?_⟩ <;>
      · intro h' hh' heq
        rcases List.mem_append.1 hh' with hh' | hh'
        · exact absurd heq (hold h' hh')
        · rw [List.mem_singleton.1 hh']
    next oldStart oldLimit hsome =>
      rw [hsome] at hold
      obtain ⟨⟨a, ha, habci, hastart⟩, hle, ⟨b, hb, hbbci, hblimit⟩, hge⟩ := hold
      dsimp only at hastart hle hblimit hge
      refine ⟨?_, ?_, ?_, ?_⟩
      · dsimp only
        split_ifs
        · exact ⟨a, List.mem_append_left _ ha, habci, hastart⟩
        · exact ⟨h, by simp, rfl, rfl⟩
      · intro h' hh' heq
        dsimp only
        rcases List.mem_append.1 hh' with hh' | hh'
        · have := hle h' hh' heq
          split_ifs <;> omega
        · rw [List.mem_singleton.1 hh']
          split_ifs <;> omega
      · dsimp only
        split_ifs
        · exact ⟨b, List.mem_append_left _ hb, hbbci, hblimit⟩
        · exact ⟨h, by simp, rfl, rfl⟩
      · intro h' hh' heq
        dsimp only
        rcases List.mem_append.1 hh' with hh' | hh'
        · have := hge h' hh' heq
          split_ifs <;> omega
        · rw [List.mem_singleton.1 hh']
          split_ifs <;> omega
  · rw [Function.update_of_ne hbci]
    have hmem : ∀ h' ∈ handlers ++ [h], h'.handlerBci = bci → h' ∈ handlers := by
      intro h' hh' heq
      rcases List.mem_append.1 hh' with hh' | hh'
      · exact hh'
      · rw [List.mem_singleton.1 hh'] at heq
        exact absurd heq.symm hbci
    cases hrange : ranges bci with
    | none =>
      rw [hrange] at hold
      exact fun h' hh' heq => hold h' (hmem h' hh' heq) heq
    | some range =>
      rw [hrange] at hold
      obtain ⟨⟨a, ha, habci⟩, hle, ⟨b, hb, hbbci⟩, hge⟩ := hold
      exact ⟨⟨a, List.mem_append_left _ ha, habci⟩,
        fun h' hh' heq => hle h' (hmem h' hh' heq) heq,
        ⟨b, List.mem_append_left _ hb, hbbci⟩,
        fun h' hh' heq => hge h' (hmem h' hh' heq) heq⟩

theorem rangeOf_foldl_addRange {done handlers : List CiExceptionHandler}
    (hranges : ∀ bci, RangeOf done bci (ranges bci)) (bci : Nat) :
    RangeOf (done ++ handlers) bci (handlers.foldl addRange ranges bci) := by
  induction handlers generalizing done ranges with
  | nil => simpa using hranges bci
  | cons h handlers ih =>
    have hrest := ih (rangeOf_addRange (h := h) hranges)
    rwa [List.append_assoc, List.singleton_append] at hrest

/-! ## The whole method -/

/-- Where a block of the method starts. -/
def StartsBlock (m : CiMethod) (bci : Nat) : Prop :=
  bci = 0 ∨ (∃ a ∈ m.instructions, bci ∈ a.code.control.targets) ∨
    (∃ a ∈ m.instructions, a.code.control ≠ .fallThrough ∧ bci = a.nextBci ∧
      a.nextBci < m.codeSize) ∨
    ∃ h ∈ m.handlers, bci = h.handlerBci ∨ bci = h.start ∨ (bci = h.limit ∧ h.limit < m.codeSize)

/-- The blocks are what they are meant to be. -/
structure BlocksExact (m : CiMethod) (s : CiHandlerBlocks) : Prop where
  bounds : ∀ b < s.numBlocks, (s.blocks b).startBci < (s.blocks b).limitBci ∧
    (s.blocks b).limitBci ≤ m.codeSize
  covers : ∀ bci < m.codeSize, ∃! b, b < s.numBlocks ∧ (s.blocks b).startBci ≤ bci ∧
    bci < (s.blocks b).limitBci
  starts : ∀ bci, s.Starts bci ↔ StartsBlock m bci
  mapped : ∀ a ∈ m.instructions, ∃ b < s.numBlocks, s.bciToBlock a.bci = some b ∧
    (s.blocks b).startBci ≤ a.bci ∧ a.bci < (s.blocks b).limitBci
  /-- The last instruction of a block. -/
  control : ∀ b < s.numBlocks, ∃ a ∈ m.instructions, (s.blocks b).startBci ≤ a.bci ∧
    a.nextBci = (s.blocks b).limitBci ∧
    (s.blocks b).controlBci = if a.code.control = .fallThrough then none else some a.bci
  exRange : ∀ b < s.numBlocks, RangeOf m.handlers (s.blocks b).startBci (s.exRange b)

end CiHandlerBlocks

/-! ## Instructions of a contiguous list -/

namespace Contiguous

variable {p stop : Nat} {l : List Instruction}

theorem exists_around (h : Contiguous p l stop) {bci : Nat} (hp : p ≤ bci) (hstop : bci < stop) :
    ∃ a ∈ l, a.bci ≤ bci ∧ bci < a.nextBci := by
  induction l generalizing p with
  | nil =>
    obtain rfl := h
    omega
  | cons i l ih =>
    obtain ⟨rfl, hlt, hrest⟩ := h
    by_cases hin : bci < i.nextBci
    · exact ⟨i, List.mem_cons_self, hp, hin⟩
    · obtain ⟨a, ha, hbounds⟩ := ih hrest (by omega)
      exact ⟨a, List.mem_cons_of_mem _ ha, hbounds⟩

/-- The instruction before a bci where one starts or the code ends. -/
theorem exists_before (h : Contiguous p l stop) {bci : Nat} (hp : p < bci) (hstop : bci ≤ stop)
    (hbci : bci = stop ∨ ∃ a ∈ l, a.bci = bci) : ∃ a ∈ l, a.nextBci = bci := by
  obtain ⟨a, ha, hle, hlt⟩ := h.exists_around (Nat.le_sub_one_of_lt hp) (by omega)
  have hbounds := h.bounds ha
  refine ⟨a, ha, ?_⟩
  rcases hbci with rfl | ⟨b, hb, rfl⟩
  · omega
  · have hnext := h.next_le ha hb (by omega)
    omega

end Contiguous

namespace CiHandlerBlocks

variable {s : CiHandlerBlocks} {m : CiMethod}

theorem covers_of_partition (h : CiMethodBlocks.Partition m s.toCiMethodBlocks) (hv : m.Confined) :
    ∀ bci < m.codeSize, ∃! b, b < s.numBlocks ∧ (s.blocks b).startBci ≤ bci ∧
      bci < (s.blocks b).limitBci := by
  intro bci hbci
  obtain ⟨a, ha, hle, hlt⟩ := hv.contiguous.exists_around (Nat.zero_le bci) hbci
  obtain ⟨b, hb, hstart, hlimit⟩ := h.exists_block hv ha
  have hnext := h.next_le_limit hv hb ha hlimit
  refine ⟨b, ⟨hb, by omega, by omega⟩, ?_⟩
  rintro c ⟨hc, hcstart, hclimit⟩
  rcases Nat.lt_trichotomy (s.blocks b).startBci (s.blocks c).startBci with hbc | hbc | hbc
  · have hle := h.limit_le b hb c hc hbc
    omega
  · exact h.inj c hc b hb hbc.symm
  · have hle := h.limit_le c hc b hb hbc
    omega

theorem control_of_partition (h : CiMethodBlocks.Partition m s.toCiMethodBlocks)
    (hv : m.Confined) {b : Nat} (hb : b < s.numBlocks) :
    ∃ a ∈ m.instructions, (s.blocks b).startBci ≤ a.bci ∧ a.nextBci = (s.blocks b).limitBci ∧
      (s.blocks b).controlBci = if a.code.control = .fallThrough then none else some a.bci := by
  have hpos := h.lt_limit b hb
  obtain ⟨a, ha, hnext⟩ : ∃ a ∈ m.instructions, a.nextBci = (s.blocks b).limitBci := by
    refine hv.contiguous.exists_before (by omega) (h.limit_le_codeSize hv hb) ?_
    refine (h.limit b hb).imp_right ?_
    rintro ⟨l, hl, hstart⟩
    obtain ⟨c, hc, hbci⟩ := h.isStart l hl
    exact ⟨c, hc, hbci.trans hstart⟩
  have hlt := (hv.contiguous.bounds ha).2.1
  have hle : (s.blocks b).startBci ≤ a.bci := by
    obtain ⟨c, hc, hbci⟩ := h.isStart b hb
    by_contra hgt
    have hback := hv.contiguous.next_le ha hc (by omega)
    omega
  refine ⟨a, ha, hle, hnext, ?_⟩
  split
  next hcontrol => exact h.control_eq_none hv hb ha (by omega) hcontrol hnext
  next hcontrol => exact h.control_eq_some hb ha (by omega) hle hcontrol

/-- The blocks of a method are exact, whatever the order in which they are made and split. -/
theorem blocksExact_of_confined (hv : m.Confined) : BlocksExact m (CiHandlerBlocks.new m) := by
  have hpartition : CiMethodBlocks.Partition m (CiHandlerBlocks.new m).toCiMethodBlocks := by
    rw [toBlocks_new]
    exact CiMethodBlocks.partition_new hv
  -- The handlers, before the scan.
  let initial : CiHandlerBlocks := ⟨⟨fun _ => ⟨0, 0, none⟩, 1,
    Function.update (fun _ => none) 0 (some 0)⟩, fun _ => none⟩
  have htracked : Tracks (fun _ => none) initial := ⟨fun _ _ => rfl, fun _ hne => absurd rfl hne⟩
  have hzero : ∀ bci, initial.Starts bci ↔ bci = 0 := by
    intro bci
    constructor
    · rintro ⟨i, -, hstart⟩
      exact hstart.symm
    · rintro rfl
      exact ⟨0, Nat.one_pos, rfl⟩
  obtain ⟨hscanned, hstarts, htracks⟩ := foldl_makeHandlerBlocks_spec (s := initial) hv
    (fun _ hh => hh) (CiMethodBlocks.scanned_initial hv) htracked
  have hranges : ∀ bci, RangeOf m.handlers bci (m.handlers.foldl addRange (fun _ => none) bci) := by
    have hnone : ∀ bci, RangeOf [] bci ((fun _ => none : Nat → Option (Nat × Nat)) bci) :=
      fun _ h hh => absurd hh List.not_mem_nil
    exact fun bci => rangeOf_foldl_addRange hnone bci
  have hnew : CiHandlerBlocks.new m =
      doAnalysis m (m.handlers.foldl (makeHandlerBlocks m.codeSize) initial) := rfl
  rw [hnew] at hpartition ⊢
  generalize m.handlers.foldl (makeHandlerBlocks m.codeSize) initial = s at *
  generalize m.handlers.foldl addRange (fun _ => none) = ranges at *
  -- The scan starts in the block at 0.
  obtain ⟨z, hz, hzstart⟩ := hscanned.zero
  have hmap : s.bciToBlock 0 = some z := (hscanned.ahead 0 le_rfl z).2 ⟨hz, hzstart⟩
  have hbegin : CiMethodBlocks.Analyzed m 0 s.toCiMethodBlocks z :=
    ⟨hscanned, ⟨hz, hzstart.le, fun hpos => absurd hpos (lt_irrefl 0),
      fun j _ hlt => absurd hlt (Nat.not_lt_zero _)⟩,
      fun a _ hlt => absurd hlt (Nat.not_lt_zero _), fun a _ hlt => absurd hlt (Nat.not_lt_zero _)⟩
  obtain ⟨hscan, hranged⟩ := foldl_analyze_spec hv (fun _ hi => hi) hv.contiguous hbegin
  have hend := (@CiMethodBlocks.Analyzed.foldl m 0 hv m.instructions (s.toCiMethodBlocks, z)
    (fun _ hi => hi) _ hv.contiguous hbegin).1
  obtain ⟨hblocks, hcur⟩ := s.toBlocks_foldl_analyze m.codeSize z m.instructions
  rw [← hblocks, ← hcur] at hend
  have hdone : doAnalysis m s =
      (m.instructions.foldl (analyze m.codeSize) (s, z)).1.setLimitBci
        (m.instructions.foldl (analyze m.codeSize) (s, z)).2 m.codeSize := by
    unfold doAnalysis
    rw [hmap, Option.getD_some]
  rw [hdone] at hpartition ⊢
  generalize m.instructions.foldl (analyze m.codeSize) (s, z) = state at *
  obtain ⟨s', cur⟩ := state
  dsimp only at hpartition hend hscan hranged ⊢
  have hsame : SameStarts s'.toCiMethodBlocks (s'.setLimitBci cur m.codeSize).toCiMethodBlocks :=
    CiMethodBlocks.sameStarts_setLimitBci m.codeSize
  have hfinal := (hranged ranges htracks).of_sameStarts hsame rfl
  constructor
  case bounds =>
    exact fun b hb => ⟨hpartition.lt_limit b hb, hpartition.limit_le_codeSize hv hb⟩
  case covers => exact covers_of_partition hpartition hv
  case starts =>
    intro bci
    refine (hsame.isBlockStart bci).trans ((hscan bci).trans ?_)
    rw [hstarts bci, hzero bci, StartsBlock, or_assoc]
    refine or_congr_right ?_
    rw [or_comm]
    have hinstructions : (∃ i ∈ m.instructions, bci ∈ i.newStarts m.codeSize) ↔
        (∃ a ∈ m.instructions, bci ∈ a.code.control.targets) ∨
          ∃ a ∈ m.instructions, a.code.control ≠ .fallThrough ∧ bci = a.nextBci ∧
            a.nextBci < m.codeSize := by
      rw [← exists_or]
      refine exists_congr fun a => ?_
      rw [← and_or_left]
      exact and_congr_right fun ha => Instruction.mem_newStarts hv ha bci
    have hhandlers : (∃ h ∈ m.handlers, bci ∈ handlerStarts m.codeSize h) ↔
        ∃ h ∈ m.handlers, bci = h.handlerBci ∨ bci = h.start ∨
          (bci = h.limit ∧ h.limit < m.codeSize) := by
      refine exists_congr fun h => and_congr_right fun _ => ?_
      unfold handlerStarts
      split_ifs with hlt <;> simp [hlt]
    rw [hinstructions, hhandlers, or_assoc]
  case mapped =>
    intro a ha
    obtain ⟨b, hb, hstart, hlimit⟩ := hpartition.exists_block hv ha
    have hbounds := hv.contiguous.bounds ha
    have hcontains : s'.Contains b a.bci := by
      refine (hsame.contains b a.bci).1 ⟨hb, hstart, fun j hj hle => ?_⟩
      by_contra hgt
      have hlimit_le := hpartition.limit_le b hb j hj (by omega)
      omega
    exact ⟨b, hb, (hend.scanned.behind a.bci (by omega) b).2 ⟨⟨a, ha, rfl⟩, hcontains⟩, hstart,
      hlimit⟩
  case control => exact fun b hb => control_of_partition hpartition hv hb
  case exRange =>
    intro b hb
    rw [hfinal.exRange_eq b hb]
    exact hranges _

/-- A block behind the code is no part of it. -/
theorem not_blocksExact (hresumes : ¬ m.Resumes) : ¬ BlocksExact m (CiHandlerBlocks.new m) := by
  intro hexact
  obtain ⟨b, hb, hstart⟩ := CiMethodBlocks.exists_block_behind hresumes
  rw [← toBlocks_new] at hb hstart
  obtain ⟨hlt, hle⟩ := hexact.bounds b hb
  exact absurd (hlt.trans_le hle) (not_lt.mpr hstart)

/-- The blocks are exact for just the methods whose last instruction is no two way branch and
no jsr: for these a block is made behind the code. -/
theorem blocksExact_new_iff (hwf : m.WellFormed) :
    BlocksExact m (CiHandlerBlocks.new m) ↔ m.Resumes := by
  refine ⟨fun hexact => ?_, fun hresumes => blocksExact_of_confined ⟨hwf, hresumes⟩⟩
  by_contra hresumes
  exact not_blocksExact hresumes hexact

/-- The loop of `countingMethod` is split when its scan comes to the jump back. -/
theorem blocksExact_new_iff_countingMethod :
    BlocksExact MethodLiveness.countingMethod (CiHandlerBlocks.new MethodLiveness.countingMethod) :=
  (blocksExact_new_iff MethodLiveness.wellFormed_countingMethod).mpr (by
    unfold CiMethod.Resumes
    decide)

/-- The block at bci 8 of a method of eight bytes. -/
theorem not_blocksExact_callingMethod :
    MethodLiveness.callingMethod.WellFormed ∧
      ¬ BlocksExact MethodLiveness.callingMethod
        (CiHandlerBlocks.new MethodLiveness.callingMethod) :=
  ⟨MethodLiveness.wellFormed_callingMethod,
    not_blocksExact MethodLiveness.not_resumes_callingMethod⟩

end CiHandlerBlocks

end HotSpot
