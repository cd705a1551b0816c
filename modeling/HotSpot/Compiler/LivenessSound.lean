import HotSpot.Compiler.BlocksBehind
import HotSpot.Compiler.LivenessFlow
import HotSpot.Compiler.LivenessGraph

/-! # The liveness analysis is sound

What a range of instructions reads and writes first, local by local; then every
live local is in the summary of its block at each bci, by induction over the path
that makes it live; and queries give these summaries in whatever order they come.
-/

namespace HotSpot

/-! ## The first use of a local -/

/-- Whether a local is read first in a list of instructions, or written. -/
def firstUse (isObjectInit : Bool) (x : Nat) : List Instruction → Option Bool
  | [] => none
  | i :: l =>
    if x ∈ i.reads isObjectInit then some true
    else if x ∈ i.writes then some false
    else firstUse isObjectInit x l

namespace GenKill

variable {n : Nat} {isObjectInit : Bool} {x : Fin n}

theorem isSet_iff {s : LocalSet n} {localNum : Nat} :
    s.isSet localNum = true ↔ ∃ i ∈ s, i.val = localNum := by
  simp [LocalSet.isSet]

theorem mem_bit {localNum : Nat} : x ∈ LocalSet.bit n localNum ↔ x.val = localNum := by
  simp [LocalSet.bit]

theorem mem_loadOne_gen (s : GenKill n) (localNum : Nat) :
    x ∈ (s.loadOne localNum).gen ↔ x ∈ s.gen ∨ x.val = localNum ∧ x ∉ s.kill := by
  rw [loadOne]
  split
  next hset =>
    obtain ⟨i, hi, rfl⟩ := isSet_iff.mp hset
    refine ⟨Or.inl, ?_⟩
    rintro (hx | ⟨heq, hkill⟩)
    · exact hx
    · rw [Fin.ext heq] at hkill
      exact absurd hi hkill
  next hset =>
    simp only [Finset.mem_union, mem_bit]
    refine or_congr Iff.rfl ⟨fun heq => ⟨heq, fun hkill => ?_⟩, And.left⟩
    exact hset (isSet_iff.mpr ⟨x, hkill, heq⟩)

@[simp] theorem kill_loadOne (s : GenKill n) (localNum : Nat) :
    (s.loadOne localNum).kill = s.kill := by
  rw [loadOne]
  split <;> rfl

theorem mem_storeOne_kill (s : GenKill n) (localNum : Nat) :
    x ∈ (s.storeOne localNum).kill ↔ x ∈ s.kill ∨ x.val = localNum ∧ x ∉ s.gen := by
  rw [storeOne]
  split
  next hset =>
    obtain ⟨i, hi, rfl⟩ := isSet_iff.mp hset
    refine ⟨Or.inl, ?_⟩
    rintro (hx | ⟨heq, hgen⟩)
    · exact hx
    · rw [Fin.ext heq] at hgen
      exact absurd hi hgen
  next hset =>
    simp only [Finset.mem_union, mem_bit]
    refine or_congr Iff.rfl ⟨fun heq => ⟨heq, fun hgen => ?_⟩, And.left⟩
    exact hset (isSet_iff.mpr ⟨x, hgen, heq⟩)

@[simp] theorem gen_storeOne (s : GenKill n) (localNum : Nat) :
    (s.storeOne localNum).gen = s.gen := by
  rw [storeOne]
  split <;> rfl

theorem mem_loadTwo_gen (s : GenKill n) (localNum : Nat) : x ∈ (s.loadTwo localNum).gen ↔
    x ∈ s.gen ∨ (x.val = localNum ∨ x.val = localNum + 1) ∧ x ∉ s.kill := by
  rw [loadTwo, mem_loadOne_gen, mem_loadOne_gen, kill_loadOne]
  tauto

theorem mem_storeTwo_kill (s : GenKill n) (localNum : Nat) : x ∈ (s.storeTwo localNum).kill ↔
    x ∈ s.kill ∨ (x.val = localNum ∨ x.val = localNum + 1) ∧ x ∉ s.gen := by
  rw [storeTwo, mem_storeOne_kill, mem_storeOne_kill, gen_storeOne]
  tauto

theorem kill_loadTwo (s : GenKill n) (localNum : Nat) :
    (s.loadTwo localNum).kill = s.kill := by
  rw [loadTwo, kill_loadOne, kill_loadOne]

theorem gen_storeTwo (s : GenKill n) (localNum : Nat) :
    (s.storeTwo localNum).gen = s.gen := by
  rw [storeTwo, gen_storeOne, gen_storeOne]

theorem mem_single_gen (s : GenKill n) (i : Instruction) : x ∈ (single isObjectInit s i).gen ↔
    x ∈ s.gen ∨ x.val ∈ i.reads isObjectInit ∧ x ∉ s.kill := by
  obtain ⟨bci, nextBci, code⟩ := i
  cases code with
  | jsr target => simp [single, Instruction.reads]
  | ret index => simp [single, Instruction.reads, mem_loadOne_gen]
  | plain code =>
    cases code with
    | load kind index =>
      cases kind <;> simp [single, Instruction.reads, mem_loadOne_gen, mem_loadTwo_gen]
    | store kind index => cases kind <;> simp [single, Instruction.reads, gen_storeTwo]
    | voidReturn => cases isObjectInit <;> simp [single, Instruction.reads, mem_loadOne_gen]
    | _ => simp [single, Instruction.reads, mem_loadOne_gen]

theorem mem_single_kill (s : GenKill n) (i : Instruction) : x ∈ (single isObjectInit s i).kill ↔
    x ∈ s.kill ∨ (x.val ∉ i.reads isObjectInit ∧ x.val ∈ i.writes) ∧ x ∉ s.gen := by
  obtain ⟨bci, nextBci, code⟩ := i
  cases code with
  | jsr target => simp [single, Instruction.writes]
  | ret index => simp [single, Instruction.writes]
  | plain code =>
    cases code with
    | load kind index => cases kind <;> simp [single, Instruction.writes, kill_loadTwo]
    | store kind index =>
      cases kind <;>
        simp [single, Instruction.reads, Instruction.writes, mem_storeOne_kill, mem_storeTwo_kill]
    | iinc index => simp [single, Instruction.reads, Instruction.writes]
    | voidReturn => cases isObjectInit <;> simp [single, Instruction.writes]
    | _ => simp [single, Instruction.writes]

/-- A local that was used already stays as it is. -/
theorem foldl_single_of_mem (l : List Instruction) {s : GenKill n}
    (hdisjoint : x ∈ s.gen ↔ x ∉ s.kill) :
    (x ∈ (l.foldl (single isObjectInit) s).gen ↔ x ∈ s.gen) ∧
      (x ∈ (l.foldl (single isObjectInit) s).kill ↔ x ∈ s.kill) := by
  induction l generalizing s with
  | nil => exact ⟨Iff.rfl, Iff.rfl⟩
  | cons i l ih =>
    have hgen := @mem_single_gen n isObjectInit x s i
    have hkill := @mem_single_kill n isObjectInit x s i
    obtain ⟨h1, h2⟩ := ih (s := single isObjectInit s i) (by rw [hgen, hkill]; tauto)
    rw [List.foldl_cons, h1, h2, hgen, hkill]
    tauto

/-- The locals of a range by their first use. -/
theorem foldl_single_iff (l : List Instruction) {s : GenKill n} (hgen : x ∉ s.gen)
    (hkill : x ∉ s.kill) :
    (x ∈ (l.foldl (single isObjectInit) s).gen ↔ firstUse isObjectInit x l = some true) ∧
      (x ∈ (l.foldl (single isObjectInit) s).kill ↔ firstUse isObjectInit x l = some false) := by
  induction l generalizing s with
  | nil => simp [firstUse, hgen, hkill]
  | cons i l ih =>
    have hgen' := @mem_single_gen n isObjectInit x s i
    have hkill' := @mem_single_kill n isObjectInit x s i
    rw [List.foldl_cons, firstUse]
    split
    next hread =>
      have hused := @foldl_single_of_mem n isObjectInit x l (single isObjectInit s i)
        (by rw [hgen', hkill']; tauto)
      rw [hused.1, hused.2, hgen', hkill']
      simp [hgen, hkill, hread]
    next hread =>
      split
      next hwrite =>
        have hused := @foldl_single_of_mem n isObjectInit x l (single isObjectInit s i)
          (by rw [hgen', hkill']; tauto)
        rw [hused.1, hused.2, hgen', hkill']
        simp [hgen, hkill, hread, hwrite]
      next hwrite =>
        refine ih ?_ ?_
        · rw [hgen']
          tauto
        · rw [hkill']
          tauto

theorem mem_range_gen {m : CiMethod} {bci maxBci : Nat} {x : Fin m.maxLocals} :
    x ∈ (range m bci maxBci).gen ↔
      firstUse m.isObjectInit x (m.stream bci maxBci) = some true :=
  (foldl_single_iff _ (by simp) (by simp)).1

theorem mem_range_kill {m : CiMethod} {bci maxBci : Nat} {x : Fin m.maxLocals} :
    x ∈ (range m bci maxBci).kill ↔
      firstUse m.isObjectInit x (m.stream bci maxBci) = some false :=
  (foldl_single_iff _ (by simp) (by simp)).2

end GenKill

/-! ## Streams -/

theorem Contiguous.filter_eq {p stop : Nat} {l : List Instruction} (h : Contiguous p l stop)
    {i : Instruction} (hi : i ∈ l) {limit : Nat} (hlt : i.bci < limit) :
    l.filter (fun j => i.bci ≤ j.bci && j.bci < limit) =
      i :: l.filter (fun j => i.nextBci ≤ j.bci && j.bci < limit) := by
  induction l generalizing p with
  | nil => exact absurd hi List.not_mem_nil
  | cons a l ih =>
    obtain ⟨rfl, hnext, hrest⟩ := h
    rcases List.mem_cons.mp hi with rfl | hi
    · rw [List.filter_cons_of_pos (by simp [hlt]), List.filter_cons_of_neg (by simp [hnext])]
      refine congrArg _ (List.filter_congr fun j hj => ?_)
      have hle := (hrest.bounds hj).1
      have : (i.bci ≤ j.bci) = (i.nextBci ≤ j.bci) := by
        rw [eq_iff_iff]
        omega
      simp only [this]
    · have hle := hrest.bounds hi
      rw [List.filter_cons_of_neg (by simp; omega), List.filter_cons_of_neg (by simp; omega)]
      exact ih hrest hi

namespace CiMethod

variable {m : CiMethod}

/-- A path starts at an instruction. -/
theorem Live.isStart {x bci : Nat} (hlive : m.Live x bci) : m.IsStart bci := by
  cases hlive with
  | read hi _ => exact ⟨_, hi, rfl⟩
  | normal hi _ _ _ => exact ⟨_, hi, rfl⟩
  | exception hi _ _ => exact ⟨_, hi, rfl⟩

theorem stream_eq (hv : m.Confined) {i : Instruction} (hi : i ∈ m.instructions) {limit : Nat}
    (hlt : i.bci < limit) : m.stream i.bci limit = i :: m.stream i.nextBci limit :=
  hv.contiguous.filter_eq hi hlt

theorem stream_self (limit : Nat) : m.stream limit limit = [] := by
  rw [stream, List.filter_eq_nil_iff]
  intro i _
  simp

theorem instructionAt_eq (hv : m.Confined) {i : Instruction} (hi : i ∈ m.instructions) :
    m.instructionAt i.bci = some i := by
  rw [instructionAt]
  cases hfind : m.instructions.find? fun j => j.bci == i.bci with
  | none =>
    have := List.find?_eq_none.mp hfind i hi
    simp at this
  | some j =>
    have hj := List.mem_of_find?_eq_some hfind
    have hbci := List.find?_some hfind
    rw [hv.contiguous.eq_of_bci hj hi (by simpa using hbci)]

end CiMethod

/-! ## Where an instruction stands in its block -/

namespace CiMethodBlocks.Partition

variable {m : CiMethod} {s : CiMethodBlocks} (h : Partition m s) (hv : m.Confined)

include h hv

theorem limit_le_codeSize {b : Nat} (hb : b < s.numBlocks) :
    (s.blocks b).limitBci ≤ m.codeSize := by
  rcases h.limit b hb with heq | ⟨l, hl, hstart⟩
  · exact heq.le
  · obtain ⟨a, ha, hbci⟩ := h.isStart l hl
    have := hv.contiguous.bounds ha
    omega

variable {b : Nat} (hb : b < s.numBlocks) {i : Instruction} (hi : i ∈ m.instructions)
  (hlt : i.bci < (s.blocks b).limitBci)

include hb hi hlt

theorem next_le_limit : i.nextBci ≤ (s.blocks b).limitBci := by
  rcases h.limit b hb with heq | ⟨l, hl, hstart⟩
  · rw [heq]
    exact (hv.contiguous.bounds hi).2.2
  · obtain ⟨a, ha, hbci⟩ := h.isStart l hl
    have := hv.contiguous.next_le hi ha (by omega)
    omega

variable (hle : (s.blocks b).startBci ≤ i.bci)

include hle

/-- A transfer of control is the end of its block. -/
theorem next_eq_limit (hcontrol : i.code.control ≠ .fallThrough) :
    i.nextBci = (s.blocks b).limitBci := by
  refine le_antisymm (h.next_le_limit hv hb hi hlt) ?_
  have hbounds := hv.contiguous.bounds hi
  rcases Nat.lt_or_ge i.nextBci m.codeSize with hnext | hnext
  · obtain ⟨l, hl, hstart⟩ := h.ends i hi hcontrol hnext
    have := h.limit_le b hb l hl (by omega)
    omega
  · exact (h.limit_le_codeSize hv hb).trans hnext

omit hv in
theorem control_eq_some (hcontrol : i.code.control ≠ .fallThrough) :
    (s.blocks b).controlBci = some i.bci :=
  (h.control b hb i.bci).mpr ⟨i, hi, rfl, hcontrol, hle, hlt⟩

omit hle in
/-- A block whose last instruction goes on to the next one has no transfer of control. -/
theorem control_eq_none (hcontrol : i.code.control = .fallThrough)
    (hnext : i.nextBci = (s.blocks b).limitBci) : (s.blocks b).controlBci = none := by
  cases hc : (s.blocks b).controlBci with
  | none => rfl
  | some c =>
    obtain ⟨a, ha, rfl, hacontrol, hale, halt⟩ := (h.control b hb c).mp hc
    have hend := h.next_eq_limit hv hb ha halt hale hacontrol
    have hbounds := hv.contiguous.bounds ha
    have hbounds' := hv.contiguous.bounds hi
    rcases Nat.lt_trichotomy a.bci i.bci with hai | hai | hai
    · have := hv.contiguous.next_le ha hi hai
      omega
    · rw [hv.contiguous.eq_of_bci ha hi hai] at hacontrol
      exact absurd hcontrol hacontrol
    · have := hv.contiguous.next_le hi ha hai
      omega

omit hb hi hlt hle

/-- The block of an instruction. -/
theorem exists_block {i : Instruction} (hi : i ∈ m.instructions) :
    ∃ b < s.numBlocks, (s.blocks b).startBci ≤ i.bci ∧ i.bci < (s.blocks b).limitBci := by
  obtain ⟨z, hz, hzero⟩ := h.zero
  have hne : ((Finset.range s.numBlocks).filter fun b => (s.blocks b).startBci ≤ i.bci).Nonempty :=
    ⟨z, Finset.mem_filter.mpr ⟨Finset.mem_range.mpr hz, by omega⟩⟩
  obtain ⟨b, hb, hmax⟩ := Finset.exists_max_image _ (fun b => (s.blocks b).startBci) hne
  obtain ⟨hlt, hle⟩ := Finset.mem_filter.mp hb
  have hb := Finset.mem_range.mp hlt
  refine ⟨b, hb, hle, ?_⟩
  by_contra hge
  rcases h.limit b hb with heq | ⟨l, hl, hstart⟩
  · have := hv.contiguous.bounds hi
    omega
  · have := hmax l (Finset.mem_filter.mpr ⟨Finset.mem_range.mpr hl, by omega⟩)
    have := h.lt_limit b hb
    omega

end CiMethodBlocks.Partition

/-! ## The analysis when it is done -/

/-- The analysis of the blocks of a method. -/
abbrev Analysis (m : CiMethod) := MethodLiveness (CiMethodBlocks.new m).numBlocks m.maxLocals

namespace MethodLiveness

/-- The locals that are live at a bci of a block. -/
def summary (m : CiMethod) {k : Nat} (block : BasicBlock k m.maxLocals) (bci : Nat) :
    LocalSet m.maxLocals :=
  (block.normalExit \ (GenKill.range m bci block.limitBci).kill ∪
    (GenKill.range m bci block.limitBci).gen) ∪ block.exceptionExit

/-- An analysis that has been propagated and then asked. -/
structure Final (m : CiMethod) (ml : Analysis m) : Prop where
  startBci : ∀ b, (ml.blocks b).startBci = ((CiMethodBlocks.new m).blocks b).startBci
  limitBci : ∀ b, (ml.blocks b).limitBci = ((CiMethodBlocks.new m).blocks b).limitBci
  blockMap : ml.blockMap = (connect m (CiMethodBlocks.new m)).blockMap
  entry : ∀ b, (ml.blocks b).entry = summary m (ml.blocks b) (ml.blocks b).startBci
  normal : ∀ b dest, b ∈ ((connect m (CiMethodBlocks.new m)).blocks
    dest).normalPredecessors → (ml.blocks dest).entry ⊆ (ml.blocks b).normalExit
  exception : ∀ b dest, b ∈ ((connect m (CiMethodBlocks.new m)).blocks
    dest).exceptionPredecessors → (ml.blocks dest).entry ⊆ (ml.blocks b).exceptionExit
  /-- What a block keeps of its last query. -/
  kept : ∀ b c, (ml.blocks b).lastBci = some c →
    (ml.blocks b).genKill = .range m c (ml.blocks b).limitBci

variable {m : CiMethod}

/-- What there is to propagate where the starts of the blocks lie in the code. -/
def prepared (m : CiMethod) : Analysis m :=
  initWorkList (initGenKill m (connect m (CiMethodBlocks.new m)))

theorem prepare_eq (hv : m.Confined) : prepare m = some (prepared m) := by
  have hp := CiMethodBlocks.partition_new hv
  rw [prepare, initBasicBlocks, if_pos, Option.map_some, prepared]
  intro blk hblk
  obtain ⟨i, hi, hstart⟩ := hp.isStart blk hblk
  have := hv.contiguous.bounds hi
  omega

/-- The block behind the last instruction is outside of `_block_map`. -/
theorem prepare_eq_none (hresumes : ¬ m.Resumes) : prepare m = none := by
  obtain ⟨b, hb, hstart⟩ := CiMethodBlocks.exists_block_behind hresumes
  rw [prepare, initBasicBlocks, if_neg, Option.map_none]
  intro hbounds
  exact absurd (hbounds b hb) (not_lt.mpr hstart)

theorem prepared_prepared (m : CiMethod) : Prepared (prepared m) := by
  have hgrows := @grows_connect m (CiMethodBlocks.new m)
  refine ⟨fun b => ?_, fun b => Prod.ext ?_ ?_, rfl⟩
  · exact hgrows.entry b
  · exact hgrows.normalExit b
  · exact hgrows.exceptionExit b

theorem Flow.final {ml : Analysis m} (h : Flow (prepared m) ml) (hdone : ml.workList = []) :
    Final m ml := by
  have hgrows := @grows_connect m (CiMethodBlocks.new m)
  have hpending : ml.worklist.pending = ∅ := by
    rw [worklist, hdone]
    rfl
  have hclosed := (Worklist.Reachable.isLeast (prepared m).monotone_contribute h.reachable
    hpending).1
  have hentry : ∀ b, (ml.blocks b).entry = (prepared m).transfer b (ml.exits b) := fun b =>
    h.entry_eq b (by simp [hdone])
  constructor
  case startBci => exact fun b => (h.same b).startBci.trans (hgrows.startBci b)
  case limitBci => exact fun b => (h.same b).limitBci.trans (hgrows.limitBci b)
  case blockMap => exact h.blockMap
  case entry =>
    intro b
    rw [hentry b, summary, transfer, (h.same b).startBci, (h.same b).limitBci]
    rfl
  case normal =>
    intro b dest hb
    have hle := (hclosed dest b).1
    rw [hentry dest]
    simp only [contribute] at hle
    change b ∈ ((prepared m).blocks dest).normalPredecessors at hb
    rwa [if_pos hb] at hle
  case exception =>
    intro b dest hb
    have hle := (hclosed dest b).2
    rw [hentry dest]
    simp only [contribute] at hle
    change b ∈ ((prepared m).blocks dest).exceptionPredecessors at hb
    rwa [if_pos hb] at hle
  case kept =>
    intro b c hlast
    rw [(h.same b).lastBci] at hlast
    have hnone : ((prepared m).blocks b).lastBci = none := hgrows.lastBci b
    rw [hnone] at hlast
    cases hlast

/-! ## Every live local is found -/

section Sound

variable {ml : Analysis m}

theorem mem_summary {k : Nat} {block : BasicBlock k m.maxLocals} {bci : Nat}
    {x : Fin m.maxLocals} : x ∈ summary m block bci ↔
      (firstUse m.isObjectInit x (m.stream bci block.limitBci) = some true ∨
        x ∈ block.normalExit ∧
          firstUse m.isObjectInit x (m.stream bci block.limitBci) ≠ some false) ∨
      x ∈ block.exceptionExit := by
  simp only [summary, Finset.mem_union, Finset.mem_sdiff, GenKill.mem_range_gen,
    GenKill.mem_range_kill]
  tauto

variable (h : Final m ml) (hv : m.Confined)

include h hv

/-- A step of control out of a block goes to the start of a block that has it as a
predecessor. -/
theorem Final.normal_of_step {b : Fin (CiMethodBlocks.new m).numBlocks} {i : Instruction}
    (hi : i ∈ m.instructions)
    (hle : ((CiMethodBlocks.new m).blocks b).startBci ≤ i.bci)
    (hlt : i.bci < ((CiMethodBlocks.new m).blocks b).limitBci)
    (hnext : i.nextBci = ((CiMethodBlocks.new m).blocks b).limitBci) {t : Nat}
    (hstep : m.NormalStep i t) (hstart : m.IsStart t) :
    ∃ dest : Fin (CiMethodBlocks.new m).numBlocks,
      ((CiMethodBlocks.new m).blocks dest).startBci = t ∧
        (ml.blocks dest).entry ⊆ (ml.blocks b).normalExit := by
  have hp := CiMethodBlocks.partition_new hv
  have hat := CiMethod.instructionAt_eq hv hi
  have hdest : (CiMethodBlocks.new m).IsBlockStart t →
      (∀ dest : Fin (CiMethodBlocks.new m).numBlocks,
        ((CiMethodBlocks.new m).blocks dest).startBci = t →
          b ∈ ((connect m (CiMethodBlocks.new m)).blocks dest).normalPredecessors) →
      ∃ dest : Fin (CiMethodBlocks.new m).numBlocks,
        ((CiMethodBlocks.new m).blocks dest).startBci = t ∧
          (ml.blocks dest).entry ⊆ (ml.blocks b).normalExit := by
    rintro ⟨d, hd, hstart⟩ hedge
    exact ⟨⟨d, hd⟩, hstart, h.normal b ⟨d, hd⟩ (hedge ⟨d, hd⟩ hstart)⟩
  have hcontrol := hp.control_eq_some b.isLt hi hlt hle
  cases hstep with
  | target ht =>
    have hne : i.code.control ≠ .fallThrough := by
      intro heq
      rw [heq] at ht
      cases ht
    refine hdest (hp.targets i hi t ht) fun dest hstart => ?_
    exact connect_target hp hat (hcontrol hne) (hstart.symm ▸ ht)
  | fallThrough hfall =>
    have hlimit : i.nextBci < m.codeSize := by
      obtain ⟨j, hj, hbci⟩ := hstart
      have := hv.contiguous.bounds hj
      omega
    refine hdest ?_ fun dest hstart => ?_
    · rw [hnext]
      exact (hp.limit b b.isLt).resolve_left (by omega)
    · exact connect_fallThrough hp (hp.control_eq_none hv b.isLt hi hlt hfall hnext)
        (hnext ▸ hlimit) (hstart.trans hnext)
  | notTaken hbranch =>
    have hne : i.code.control ≠ .fallThrough := by simp [hbranch]
    have hlimit := hv.resumes i hi (by rw [hbranch]; rfl)
    refine hdest (hp.ends i hi hne hlimit) fun dest hstart => ?_
    exact connect_notTaken hp hat (hcontrol hne) hbranch hstart
  | @ret hret j hj d hjsr =>
    have hne : i.code.control ≠ .fallThrough := by simp [hret]
    have hne' : j.code.control ≠ .fallThrough := by simp [hjsr]
    have hlimit := hv.resumes j hj (by rw [hjsr]; rfl)
    obtain ⟨b', hb', hle', hlt'⟩ := hp.exists_block hv hj
    refine hdest (hp.ends j hj hne' hlimit) fun dest hstart => ?_
    have hcontrol' : ((CiMethodBlocks.new m).blocks (⟨b', hb'⟩ : Fin _)).controlBci =
        some j.bci := hp.control_eq_some hb' hj hlt' hle' hne'
    refine connect_ret hp hat (hcontrol hne) hret (CiMethod.instructionAt_eq hv hj)
      hcontrol' hjsr ?_
    rw [hstart]
    exact hp.next_eq_limit hv hb' hj hlt' hle' hne'

/-- An exception in a block goes to a handler that has it as a predecessor. -/
theorem Final.exception_of_step {b : Fin (CiMethodBlocks.new m).numBlocks} {bci t : Nat}
    (hle : ((CiMethodBlocks.new m).blocks b).startBci ≤ bci)
    (hlt : bci < ((CiMethodBlocks.new m).blocks b).limitBci) (hstep : m.ExceptionStep bci t) :
    ∃ dest : Fin (CiMethodBlocks.new m).numBlocks,
      ((CiMethodBlocks.new m).blocks dest).startBci = t ∧
        (ml.blocks dest).entry ⊆ (ml.blocks b).exceptionExit := by
  have hp := CiMethodBlocks.partition_new hv
  obtain ⟨before, handler, after, hhandlers, rfl, ⟨hstart, hlimit⟩, hbefore⟩ := hstep
  have hmem : handler ∈ m.handlers := by simp [hhandlers]
  obtain ⟨d, hd, hdest⟩ := (hp.handlers handler hmem).handlerBci
  refine ⟨⟨d, hd⟩, hdest, h.exception b ⟨d, hd⟩ ?_⟩
  refine connect_exception hp hhandlers (by omega) (fun h' hh' hcatch hcovers => ?_) hdest
  exact hbefore h' hh' hcatch ⟨by omega, by omega⟩

/-- By induction over the path that makes the local live. -/
theorem Final.mem_summary_of_live {x : Fin m.maxLocals} {bci : Nat} (hlive : m.Live x bci) :
    ∀ b : Fin (CiMethodBlocks.new m).numBlocks,
      ((CiMethodBlocks.new m).blocks b).startBci ≤ bci →
      bci < ((CiMethodBlocks.new m).blocks b).limitBci → x ∈ summary m (ml.blocks b) bci := by
  have hp := CiMethodBlocks.partition_new hv
  have hentry : ∀ dest : Fin (CiMethodBlocks.new m).numBlocks,
      (∀ b : Fin (CiMethodBlocks.new m).numBlocks,
        ((CiMethodBlocks.new m).blocks b).startBci ≤
          ((CiMethodBlocks.new m).blocks dest).startBci →
        ((CiMethodBlocks.new m).blocks dest).startBci <
          ((CiMethodBlocks.new m).blocks b).limitBci →
        x ∈ summary m (ml.blocks b) ((CiMethodBlocks.new m).blocks dest).startBci) →
      x ∈ (ml.blocks dest).entry := by
    intro dest ih
    rw [h.entry, h.startBci]
    exact ih dest le_rfl (hp.lt_limit dest dest.isLt)
  induction hlive with
  | @read i hi hread =>
    intro b hle hlt
    rw [mem_summary, h.limitBci, CiMethod.stream_eq hv hi hlt, firstUse, if_pos hread]
    exact Or.inl (Or.inl rfl)
  | @normal i hi hwrite t hstep hrest ih =>
    intro b hle hlt
    rw [mem_summary, h.limitBci, CiMethod.stream_eq hv hi hlt, firstUse, if_neg hwrite]
    split
    · exact Or.inl (Or.inl rfl)
    · rcases (hp.next_le_limit hv b.isLt hi hlt).lt_or_eq with hinside | hnext
      · -- The block goes on with the next instruction.
        have hfall : i.code.control = .fallThrough := by
          by_contra hne
          exact hinside.ne (hp.next_eq_limit hv b.isLt hi hlt hle hne)
        have ht : t = i.nextBci := by
          cases hstep with
          | target ht =>
            rw [hfall] at ht
            cases ht
          | fallThrough _ => rfl
          | notTaken hbranch => simp [hfall] at hbranch
          | ret hret => simp [hfall] at hret
        subst ht
        have hbounds := hv.contiguous.bounds hi
        have hmem := ih b (by omega) hinside
        rwa [mem_summary, h.limitBci] at hmem
      · obtain ⟨dest, rfl, hsub⟩ := h.normal_of_step hv hi hle hlt hnext hstep hrest.isStart
        rw [hnext, CiMethod.stream_self]
        exact Or.inl (Or.inr ⟨hsub (hentry dest ih), by simp [firstUse]⟩)
  | @exception i hi t hstep _ ih =>
    intro b hle hlt
    obtain ⟨dest, rfl, hsub⟩ := h.exception_of_step hv hle hlt hstep
    exact mem_summary.mpr (Or.inr (hsub (hentry dest ih)))

end Sound

/-! ## Queries -/

section Queries

variable {ml : Analysis m} (h : Final m ml) (hv : m.Confined)

include h hv

/-- The backwards search finds the block that has the bci. -/
theorem Final.blockContaining_eq (bci : Nat) : ∃ b, ml.blockContaining bci = some b ∧
    ((CiMethodBlocks.new m).blocks b).startBci ≤ bci ∧
      ∀ b' : Fin (CiMethodBlocks.new m).numBlocks,
        ((CiMethodBlocks.new m).blocks b').startBci ≤ bci →
          ((CiMethodBlocks.new m).blocks b').startBci ≤
            ((CiMethodBlocks.new m).blocks b).startBci := by
  have hp := CiMethodBlocks.partition_new hv
  have hmap : ∀ t b, ml.blockMap t = some b ↔
      ((CiMethodBlocks.new m).blocks b).startBci = t := by
    rw [h.blockMap]
    exact blockMap_connect hp
  induction bci with
  | zero =>
    obtain ⟨z, hz, hzero⟩ := hp.zero
    refine ⟨⟨z, hz⟩, (hmap 0 ⟨z, hz⟩).mpr hzero, hzero.le, fun b' hb' => ?_⟩
    simp only
    omega
  | succ bci ih =>
    rw [blockContaining]
    cases hfound : ml.blockMap (bci + 1) with
    | some b =>
      have hstart := (hmap _ b).mp hfound
      exact ⟨b, rfl, hstart.le, fun b' hb' => by omega⟩
    | none =>
      obtain ⟨b, hb, hle, hlast⟩ := ih
      refine ⟨b, hb, by omega, fun b' hb' => hlast b' ?_⟩
      rcases hb'.lt_or_eq with hlt | heq
      · omega
      · have := (hmap _ b').mpr heq
        rw [hfound] at this
        cases this

theorem Final.blockContaining_bounds {i : Instruction} (hi : i ∈ m.instructions) :
    ∃ b, ml.blockContaining i.bci = some b ∧
      ((CiMethodBlocks.new m).blocks b).startBci ≤ i.bci ∧
      i.bci < ((CiMethodBlocks.new m).blocks b).limitBci := by
  have hp := CiMethodBlocks.partition_new hv
  obtain ⟨b, hb, hle, hlast⟩ := h.blockContaining_eq hv i.bci
  refine ⟨b, hb, hle, ?_⟩
  have hpos := hp.lt_limit b b.isLt
  by_contra hge
  rcases hp.limit b b.isLt with heq | ⟨l, hl, hstart⟩
  · have := hv.contiguous.bounds hi
    omega
  · have := hlast ⟨l, hl⟩ (by simp only; omega)
    simp only at this
    omega

omit hv

/-- The analysis does not depend on the summaries that blocks keep. -/
theorem Final.keep {b : Fin (CiMethodBlocks.new m).numBlocks}
    {block : BasicBlock (CiMethodBlocks.new m).numBlocks m.maxLocals}
    (hblock :
      ∃ genKill lastBci, block = { ml.blocks b with genKill := genKill, lastBci := lastBci })
    (hkept : ∀ c, block.lastBci = some c → block.genKill = .range m c block.limitBci) :
    Final m (ml.update b fun _ => block) := by
  obtain ⟨genKill, lastBci, rfl⟩ := hblock
  have hblocks : ∀ p, (ml.update b fun _ =>
      { ml.blocks b with genKill := genKill, lastBci := lastBci }).blocks p =
      { ml.blocks p with
        genKill := if p = b then genKill else (ml.blocks p).genKill
        lastBci := if p = b then lastBci else (ml.blocks p).lastBci } := by
    intro p
    by_cases hp : p = b
    · subst hp
      simp [update]
    · simp [update, hp]
  constructor
  case blockMap => exact h.blockMap
  case kept =>
    intro p c
    rw [hblocks p]
    by_cases hp : p = b
    · subst hp
      simpa using hkept c
    · simpa [hp] using h.kept p c
  all_goals
    intros
    simp only [hblocks, summary] at *
  · exact h.startBci _
  · exact h.limitBci _
  · exact h.entry _
  · next hb => exact h.normal _ _ hb
  · next hb => exact h.exception _ _ hb

/-- A query answers with the summary and leaves the rest of the analysis as it is. -/
theorem Final.blockLivenessAt (debug : Bool) (b : Fin (CiMethodBlocks.new m).numBlocks)
    (bci : Nat) :
    (blockLivenessAt m debug (ml.blocks b) bci).1 = summary m (ml.blocks b) bci ∧
      Final m (ml.update b fun _ => (blockLivenessAt m debug (ml.blocks b) bci).2) := by
  rw [MethodLiveness.blockLivenessAt]
  split
  next hstart =>
    refine ⟨?_, h.keep ⟨_, _, rfl⟩ (h.kept b)⟩
    rw [hstart.2]
    exact h.entry b
  next =>
    simp only
    split
    next =>
      refine ⟨rfl, h.keep ⟨_, _, rfl⟩ fun c hc => ?_⟩
      obtain rfl := Option.some.inj hc
      rfl
    next hsame =>
      have hlast : (ml.blocks b).lastBci = some bci := by
        by_contra hne
        exact hsame (Or.inl hne)
      refine ⟨?_, h.keep ⟨_, _, rfl⟩ (h.kept b)⟩
      rw [summary, ← h.kept b bci hlast]

theorem Final.getLivenessAt {debug : Bool} {entryBci : Option Nat} {answer : LocalSet m.maxLocals}
    {ml' : Analysis m} (hquery : getLivenessAt m debug ml entryBci = some (answer, ml')) :
    Final m ml' := by
  rw [MethodLiveness.getLivenessAt] at hquery
  cases hb : ml.blockContaining (entryBci.getD 0) with
  | none =>
    rw [hb] at hquery
    cases hquery
  | some b =>
    rw [hb] at hquery
    simp only [Option.bind_eq_bind, Option.bind_some, Option.pure_def, Option.some.injEq,
      Prod.mk.injEq] at hquery
    rw [← hquery.2]
    exact (h.blockLivenessAt debug b _).2

include hv

/-- A query at an instruction is answered with all the locals that are live there. -/
theorem Final.live_of_getLivenessAt (debug : Bool) (entryBci : Option Nat)
    (hstart : m.IsStart (entryBci.getD 0)) : ∃ answer ml',
      MethodLiveness.getLivenessAt m debug ml entryBci = some (answer, ml') ∧
        ∀ x : Fin m.maxLocals, m.Live x (entryBci.getD 0) → x ∈ answer := by
  obtain ⟨i, hi, hbci⟩ := hstart
  obtain ⟨b, hb, hle, hlt⟩ := h.blockContaining_bounds hv hi
  rw [hbci] at hb hle hlt
  rw [MethodLiveness.getLivenessAt, hb]
  refine ⟨_, _, rfl, fun x hx => ?_⟩
  have hmem := h.mem_summary_of_live hv hx b hle hlt
  rw [← (h.blockLivenessAt debug b _).1] at hmem
  split
  · exact Finset.mem_union_left _ hmem
  · exact hmem

end Queries

/-- Queries at instructions and at the invocation, one after the other. -/
inductive Asked (m : CiMethod) (debug : Bool) (ml : Analysis m) : Analysis m → Prop where
  | refl : Asked m debug ml ml
  | query {ml' ml'' : Analysis m} {entryBci : Option Nat} {answer : LocalSet m.maxLocals}
      (h : Asked m debug ml ml') (hstart : m.IsStart (entryBci.getD 0))
      (hquery : getLivenessAt m debug ml' entryBci = some (answer, ml'')) : Asked m debug ml ml''

theorem Asked.final {debug : Bool} {ml ml' : Analysis m} (h : Asked m debug ml ml')
    (hfinal : Final m ml) : Final m ml' := by
  induction h with
  | refl => exact hfinal
  | query _ _ hquery ih => exact ih.getLivenessAt hquery

/-- `compute_liveness` ends in whatever order the blocks are taken, always with the least
solution of the equations of the blocks, and then every query, after any others, is answered
with all the locals that some path reads before it writes them. -/
def LivenessSound (m : CiMethod) (debug : Bool) : Prop :=
  ∃ start, prepare m = some start ∧
    Acc (fun ml' ml => start.flow.step ml ml') start ∧
      (∃ fuel ml, propagateLoop fuel start = some ml ∧ ml.workList = [] ∧
        start.flow.Reachable ml) ∧
      ∀ ml, start.flow.Reachable ml → ml.workList = [] →
        IsLeast {entry | start.Solves entry} (fun b => (ml.blocks b).entry) ∧
        ∀ ml', Asked m debug ml ml' → ∀ entryBci, m.IsStart (entryBci.getD 0) →
          ∃ answer ml'', getLivenessAt m debug ml' entryBci = some (answer, ml'') ∧
            ∀ x : Fin m.maxLocals, m.Live x (entryBci.getD 0) → x ∈ answer

theorem livenessSound_of_confined (hv : m.Confined) (debug : Bool) : LivenessSound m debug := by
  have hprepared := prepared_prepared m
  have hacc := acc_flow hprepared
  refine ⟨prepared m, prepare_eq hv, hacc, ?_, fun ml hreachable hdone => ?_⟩
  · obtain ⟨fuel, ml, hloop, hdone, hrun⟩ := propagateLoop_of_acc hacc
    exact ⟨fuel, ml, hloop, hdone, prepared m, rfl, hrun⟩
  · have hflow := Flow.of_reachable hprepared hreachable
    refine ⟨hflow.isLeast hdone, fun ml' hasked entryBci hstart => ?_⟩
    exact (hasked.final (hflow.final hdone)).live_of_getLivenessAt hv debug entryBci hstart

theorem not_livenessSound (hresumes : ¬ m.Resumes) (debug : Bool) : ¬ LivenessSound m debug := by
  rintro ⟨start, hprepare, -⟩
  rw [prepare_eq_none hresumes] at hprepare
  cases hprepare

/-- Liveness is computed, and is sound, for just the methods whose last instruction is no two
way branch and no jsr. -/
theorem livenessSound_iff (m : CiMethod) (hwf : m.WellFormed) (debug : Bool) :
    LivenessSound m debug ↔ m.Resumes := by
  refine ⟨fun hsound => ?_, fun hresumes => livenessSound_of_confined ⟨hwf, hresumes⟩ debug⟩
  by_contra hresumes
  exact not_livenessSound hresumes debug hsound

/-- `0: iload_0; 1: ifeq 6; 4: iload_1; 5: ireturn; 6: iinc 1 1; 9: goto 0` with a handler
at 4 for all of it. -/
def countingMethod : CiMethod where
  codeSize := 12
  maxLocals := 2
  instructions := [⟨0, 1, .plain (.load .int 0)⟩, ⟨1, 4, .plain (.ifZero 6)⟩,
    ⟨4, 5, .plain (.load .int 1)⟩, ⟨5, 6, .plain (.valueReturn .int)⟩,
    ⟨6, 9, .plain (.iinc 1)⟩, ⟨9, 12, .plain (.goto 0)⟩]
  handlers := [⟨0, 12, 4, true⟩]
  isObjectInit := false
  isSynchronized := false
  isStatic := true

theorem wellFormed_countingMethod : countingMethod.WellFormed where
  contiguous := by simp [Contiguous, countingMethod]
  nonempty := by decide
  targets := by
    unfold CiMethod.IsStart
    decide
  handlerBci := by
    unfold CiMethod.IsStart
    decide
  handlerStart := by
    unfold CiMethod.IsStart
    decide
  handlerLimit := by
    unfold CiMethod.IsStart
    decide

/-- The counter is live at the start of the loop, because of the handler. -/
theorem livenessSound_iff_countingMethod : ∃ start fuel ml answer ml',
    prepare countingMethod = some start ∧ propagateLoop fuel start = some ml ∧
      getLivenessAt countingMethod false ml (some 0) = some (answer, ml') ∧
      (1 : Fin 2) ∈ answer := by
  have hresumes : countingMethod.Resumes := by
    unfold CiMethod.Resumes
    decide
  obtain ⟨start, hprepare, -, ⟨fuel, ml, hloop, hdone, hreachable⟩, hfinal⟩ :=
    (livenessSound_iff countingMethod wellFormed_countingMethod false).mpr hresumes
  obtain ⟨answer, ml', hquery, hlive⟩ := (hfinal ml hreachable hdone).2 ml .refl (some 0)
    ⟨_, List.mem_cons_self, rfl⟩
  refine ⟨start, fuel, ml, answer, ml', hprepare, hloop, hquery, hlive (1 : Fin 2) ?_⟩
  have hstep : countingMethod.ExceptionStep 0 4 :=
    ⟨[], ⟨0, 12, 4, true⟩, [], rfl, rfl, ⟨by decide, by decide⟩, by simp⟩
  refine CiMethod.Live.exception (i := ⟨0, 1, .plain (.load .int 0)⟩) List.mem_cons_self hstep ?_
  exact CiMethod.Live.read (i := ⟨4, 5, .plain (.load .int 1)⟩) (by simp [countingMethod])
    (by simp [Instruction.reads])

/-- `0: goto 5; 3: pop; 4: return; 5: jsr 3`, whose subroutine does not return. -/
def callingMethod : CiMethod where
  codeSize := 8
  maxLocals := 0
  instructions :=
    [⟨0, 3, .plain (.goto 5)⟩, ⟨3, 4, .plain (.stack .pop)⟩, ⟨4, 5, .plain .voidReturn⟩,
    ⟨5, 8, .jsr 3⟩]
  handlers := []
  isObjectInit := false
  isSynchronized := false
  isStatic := true

theorem wellFormed_callingMethod : callingMethod.WellFormed where
  contiguous := by simp [Contiguous, callingMethod]
  nonempty := by decide
  targets := by
    unfold CiMethod.IsStart
    decide
  handlerBci := by simp [callingMethod]
  handlerStart := by simp [callingMethod]
  handlerLimit := by simp [callingMethod]

theorem not_resumes_callingMethod : ¬ callingMethod.Resumes := by
  unfold CiMethod.Resumes
  decide

/-- The block at bci 8 is put behind the array. -/
theorem not_livenessSound_callingMethod :
    callingMethod.WellFormed ∧ ∀ debug, ¬ LivenessSound callingMethod debug :=
  ⟨wellFormed_callingMethod, not_livenessSound not_resumes_callingMethod⟩

end MethodLiveness

end HotSpot
