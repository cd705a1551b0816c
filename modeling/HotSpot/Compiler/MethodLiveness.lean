import HotSpot.Interpreter.Bytecodes
import Mathlib

/-! # Bytecode liveness

The analysis of `methodLiveness.cpp`: which locals may be read before they are
written. The blocks and their predecessors are built first, then what each block
reads and writes, and then liveness is propagated backwards until nothing changes.
A query inside a block summarizes the rest of the block again.
-/

/-! ## The basic blocks of a method

How `ciMethodBlocks` cuts the bytecodes of a method into blocks: at the handlers
and the limits of their ranges, and, while it scans the bytecodes, behind every
transfer of control and at every target. A block that was taken for one before
is split when a target lies in the middle of it.
-/

namespace HotSpot

/-- A bytecode as the compiler sees it: also jsr and ret. -/
inductive CiBytecode where
  | plain (code : Bytecode)
  /-- jsr and jsr_w -/
  | jsr (target : Nat)
  | ret (index : Nat)
  deriving DecidableEq, Repr

/-- The effect of a bytecode on control flow. -/
inductive CiControl where
  | fallThrough
  /-- A two way branch. -/
  | branch (dest : Nat)
  | goto (dest : Nat)
  | switch (default : Nat) (dests : List Nat)
  | jsr (dest : Nat)
  | ret
  /-- athrow and the returns -/
  | exit
  deriving DecidableEq, Repr

def CiBytecode.control : CiBytecode → CiControl
  | plain (.ifZero target) => .branch target.toNat
  | plain (.ifICmp target) => .branch target.toNat
  | plain (.ifACmp target) => .branch target.toNat
  | plain (.ifNull target) => .branch target.toNat
  | plain (.goto target) => .goto target.toNat
  | plain (.tableswitch _ _ _ default targets) => .switch default.toNat (targets.map (·.toNat))
  | plain (.lookupswitch _ _ default pairs) =>
    .switch default.toNat (pairs.map fun pair => pair.2.toNat)
  | plain .athrow => .exit
  | plain (.valueReturn _) => .exit
  | plain .voidReturn => .exit
  | plain _ => .fallThrough
  | jsr target => .jsr target
  | ret _ => .ret

/-- An instruction of the bytecode stream. -/
structure Instruction where
  bci : Nat
  nextBci : Nat
  code : CiBytecode
  deriving DecidableEq, Repr

structure CiExceptionHandler where
  start : Nat
  limit : Nat
  handlerBci : Nat
  isCatchAll : Bool
  deriving DecidableEq, Repr

structure CiMethod where
  codeSize : Nat
  maxLocals : Nat
  instructions : List Instruction
  handlers : List CiExceptionHandler
  /-- The method is the constructor of `Object`. -/
  isObjectInit : Bool
  isSynchronized : Bool
  isStatic : Bool

/-- A block; the limit is zero until it is known, where the code has a negative number,
and `none` is `fall_through_bci`. -/
structure CiBlock where
  startBci : Nat
  limitBci : Nat
  controlBci : Option Nat
  deriving DecidableEq, Repr

/-- The blocks, by the numbers that stand for their addresses. The array `_bci_to_block`
has an element for each byte of the code; an element behind them that the code asks for is
taken to be zero, as these are at first. -/
structure CiMethodBlocks where
  blocks : Nat → CiBlock
  numBlocks : Nat
  bciToBlock : Nat → Option Nat

namespace CiMethodBlocks

def setBlock (s : CiMethodBlocks) (i : Nat) (b : CiBlock) : CiMethodBlocks :=
  { s with blocks := Function.update s.blocks i b }

def setLimitBci (s : CiMethodBlocks) (i limit : Nat) : CiMethodBlocks :=
  s.setBlock i { s.blocks i with limitBci := limit }

def setControlBci (s : CiMethodBlocks) (i bci : Nat) : CiMethodBlocks :=
  s.setBlock i { s.blocks i with controlBci := some bci }

/-- The backwards walk of `split_block_at`, from below `pos`. -/
def replaceBelow (former new : Nat) : Nat → (Nat → Option Nat) → Nat → Option Nat
  | 0, bciToBlock => bciToBlock
  | pos + 1, bciToBlock =>
    match bciToBlock pos with
    | none => replaceBelow former new pos bciToBlock
    | some current =>
      if current = former then
        replaceBelow former new pos (Function.update bciToBlock pos (some new))
      else bciToBlock

/-- Split the block `former` that spans `bci`; the new block is the first half. -/
def splitBlockAt (s : CiMethodBlocks) (bci former : Nat) : CiMethodBlocks where
  blocks := Function.update
    (Function.update s.blocks s.numBlocks ⟨(s.blocks former).startBci, bci, none⟩)
    former { s.blocks former with startBci := bci }
  numBlocks := s.numBlocks + 1
  bciToBlock := replaceBelow former s.numBlocks bci s.bciToBlock

def makeBlockAt (s : CiMethodBlocks) (bci : Nat) : CiMethodBlocks :=
  match s.bciToBlock bci with
  | none =>
    { blocks := Function.update s.blocks s.numBlocks ⟨bci, 0, none⟩
      numBlocks := s.numBlocks + 1
      bciToBlock := Function.update s.bciToBlock bci (some s.numBlocks) }
  | some cb => if (s.blocks cb).startBci = bci then s else s.splitBlockAt bci cb

def makeBlocksAt (s : CiMethodBlocks) (bcis : List Nat) : CiMethodBlocks :=
  bcis.foldl makeBlockAt s

/-- The block behind an instruction, if the method goes on there. -/
def makeNextBlock (codeSize : Nat) (s : CiMethodBlocks) (nextBci : Nat) : CiMethodBlocks :=
  if nextBci < codeSize then s.makeBlockAt nextBci else s

/-- The blocks that an instruction calls for. -/
def makeBlocksFor (codeSize : Nat) (s : CiMethodBlocks) (cur : Nat) (i : Instruction) :
    CiMethodBlocks :=
  match i.code.control with
  | .fallThrough => s
  | .branch dest => ((s.setControlBci cur i.bci).makeBlockAt i.nextBci).makeBlockAt dest
  | .goto dest =>
    ((s.setControlBci cur i.bci).makeNextBlock codeSize i.nextBci).makeBlockAt dest
  | .switch default dests =>
    (((s.setControlBci cur i.bci).makeBlocksAt dests).makeBlockAt default).makeNextBlock
      codeSize i.nextBci
  | .jsr dest => ((s.setControlBci cur i.bci).makeBlockAt i.nextBci).makeBlockAt dest
  | .ret => (s.setControlBci cur i.bci).makeNextBlock codeSize i.nextBci
  | .exit => (s.setControlBci cur i.bci).makeNextBlock codeSize i.nextBci

/-- Move on to the block of an instruction: the current block goes on, or it ends here. -/
def enterBlock (s : CiMethodBlocks) (cur bci : Nat) : CiMethodBlocks × Nat :=
  match s.bciToBlock bci with
  | none => ({ s with bciToBlock := Function.update s.bciToBlock bci (some cur) }, cur)
  | some new =>
    if new = cur then
      ({ s with bciToBlock := Function.update s.bciToBlock bci (some cur) }, cur)
    else (s.setLimitBci cur bci, new)

/-- One iteration of `do_analysis`, with the current block. -/
def analyze (codeSize : Nat) (state : CiMethodBlocks × Nat) (i : Instruction) :
    CiMethodBlocks × Nat :=
  let (s, cur) := state.1.enterBlock state.2 i.bci
  (s.makeBlocksFor codeSize cur i, cur)

def doAnalysis (m : CiMethod) (s : CiMethodBlocks) : CiMethodBlocks :=
  let (s, cur) := m.instructions.foldl (analyze m.codeSize) (s, (s.bciToBlock 0).getD 0)
  s.setLimitBci cur m.codeSize

/-- The blocks for an exception handler. -/
def makeHandlerBlocks (codeSize : Nat) (s : CiMethodBlocks) (h : CiExceptionHandler) :
    CiMethodBlocks :=
  ((s.makeBlockAt h.handlerBci).makeBlockAt h.start).makeNextBlock codeSize h.limit

/-- The constructor, without the flags that say which blocks are handlers. -/
def new (m : CiMethod) : CiMethodBlocks :=
  let initial : CiMethodBlocks :=
    { blocks := fun _ => ⟨0, 0, none⟩
      numBlocks := 1
      bciToBlock := Function.update (fun _ => none) 0 (some 0) }
  doAnalysis m (m.handlers.foldl (makeHandlerBlocks m.codeSize) initial)

end CiMethodBlocks

/-- The instructions that a stream reset to `bci` reads before `maxBci`. -/
def CiMethod.stream (m : CiMethod) (bci maxBci : Nat) : List Instruction :=
  m.instructions.filter fun i => bci ≤ i.bci && i.bci < maxBci

def CiMethod.instructionAt (m : CiMethod) (bci : Nat) : Option Instruction :=
  m.instructions.find? fun i => i.bci == bci

/-- A bit map over the locals. -/
abbrev LocalSet (n : Nat) := Finset (Fin n)

namespace LocalSet

variable {n : Nat}

/-- The bit of a local. -/
def bit (n localNum : Nat) : LocalSet n := Finset.univ.filter fun i => i.val = localNum

def isSet (s : LocalSet n) (localNum : Nat) : Bool := decide (∃ i ∈ s, i.val = localNum)

end LocalSet

/-! ## What a range of instructions reads and writes -/

/-- The locals read before they are written in a range, and those written before
they are read. -/
structure GenKill (n : Nat) where
  gen : LocalSet n
  kill : LocalSet n

namespace GenKill

variable {n : Nat}

def loadOne (s : GenKill n) (localNum : Nat) : GenKill n :=
  if s.kill.isSet localNum then s else { s with gen := s.gen ∪ .bit n localNum }

def loadTwo (s : GenKill n) (localNum : Nat) : GenKill n :=
  (s.loadOne localNum).loadOne (localNum + 1)

def storeOne (s : GenKill n) (localNum : Nat) : GenKill n :=
  if s.gen.isSet localNum then s else { s with kill := s.kill ∪ .bit n localNum }

def storeTwo (s : GenKill n) (localNum : Nat) : GenKill n :=
  (s.storeOne localNum).storeOne (localNum + 1)

/-- `compute_gen_kill_single` -/
def single (isObjectInit : Bool) (s : GenKill n) (i : Instruction) : GenKill n :=
  match i.code with
  | .plain (.load .long index) => s.loadTwo index
  | .plain (.load .double index) => s.loadTwo index
  | .plain (.load _ index) => s.loadOne index
  | .plain (.store .long index) => s.storeTwo index
  | .plain (.store .double index) => s.storeTwo index
  | .plain (.store _ index) => s.storeOne index
  | .plain (.iinc index) => s.loadOne index
  -- A return from Object.init registers a finalizer for the receiver.
  | .plain .voidReturn => if isObjectInit then s.loadOne 0 else s
  | .ret index => s.loadOne index
  | _ => s

/-- `compute_gen_kill_range` -/
def range (m : CiMethod) (bci maxBci : Nat) : GenKill m.maxLocals :=
  (m.stream bci maxBci).foldl (single m.isObjectInit) ⟨∅, ∅⟩

end GenKill

/-! ## The blocks -/

/-- A block among `k` blocks; `none` is the `_last_bci` of a block not queried yet. -/
structure BasicBlock (k n : Nat) where
  startBci : Nat
  limitBci : Nat
  entry : LocalSet n
  normalExit : LocalSet n
  exceptionExit : LocalSet n
  genKill : GenKill n
  lastBci : Option Nat
  normalPredecessors : List (Fin k)
  exceptionPredecessors : List (Fin k)

/-- The analysis of a method with `k` blocks. The work list is the list of the blocks
that are linked to it and marked as being on it. -/
structure MethodLiveness (k n : Nat) where
  blocks : Fin k → BasicBlock k n
  blockMap : Nat → Option (Fin k)
  workList : List (Fin k)

namespace MethodLiveness

variable {k n : Nat}

def update (ml : MethodLiveness k n) (b : Fin k) (f : BasicBlock k n → BasicBlock k n) :
    MethodLiveness k n :=
  { ml with blocks := Function.update ml.blocks b (f (ml.blocks b)) }

/-- `append_if_missing` -/
def appendIfMissing (preds : List (Fin k)) (pred : Fin k) : List (Fin k) :=
  if pred ∈ preds then preds else preds ++ [pred]

/-- Add a predecessor to the block that starts at a bci. -/
def addNormalPredecessor (ml : MethodLiveness k n) (bci : Nat) (pred : Fin k) :
    MethodLiveness k n :=
  match ml.blockMap bci with
  | none => ml
  | some dest => ml.update dest fun b =>
    { b with normalPredecessors := appendIfMissing b.normalPredecessors pred }

def addExceptionPredecessor (ml : MethodLiveness k n) (bci : Nat) (pred : Fin k) :
    MethodLiveness k n :=
  match ml.blockMap bci with
  | none => ml
  | some dest => ml.update dest fun b =>
    { b with exceptionPredecessors := appendIfMissing b.exceptionPredecessors pred }

/-! ## The graph -/

/-- The blocks as they are created from those of `ciMethodBlocks`. -/
def create (mblocks : CiMethodBlocks) (n : Nat) : MethodLiveness mblocks.numBlocks n where
  blocks blk :=
    { startBci := (mblocks.blocks blk).startBci
      limitBci := (mblocks.blocks blk).limitBci
      entry := ∅
      normalExit := ∅
      exceptionExit := ∅
      genKill := ⟨∅, ∅⟩
      lastBci := none
      normalPredecessors := []
      exceptionPredecessors := [] }
  blockMap := (List.finRange mblocks.numBlocks).foldl
    (fun map (blk : Fin mblocks.numBlocks) =>
      Function.update map (mblocks.blocks blk).startBci (some blk)) fun _ => none
  workList := []

/-- The graph under construction: the return points of the jsrs and the blocks that
end in a ret. -/
structure Graph (k n : Nat) where
  ml : MethodLiveness k n
  jsrExits : List Nat
  rets : List (Fin k)

/-- The edges that the end of a block makes. -/
def addControlEdges (m : CiMethod) (controlBci : Option Nat) (g : Graph k n) (blk : Fin k) :
    Graph k n :=
  let limit := (g.ml.blocks blk).limitBci
  match controlBci with
  | none =>
    if limit < m.codeSize then { g with ml := g.ml.addNormalPredecessor limit blk } else g
  | some bci =>
    match m.instructionAt bci with
    | none => g
    | some i =>
      match i.code.control with
      | .fallThrough => g
      | .branch dest => { g with
          ml := (g.ml.addNormalPredecessor i.nextBci blk).addNormalPredecessor dest blk }
      | .goto dest => { g with ml := g.ml.addNormalPredecessor dest blk }
      | .switch default dests => { g with
          ml := dests.reverse.foldl (fun ml dest => ml.addNormalPredecessor dest blk)
            (g.ml.addNormalPredecessor default blk) }
      | .jsr dest => { g with
          ml := g.ml.addNormalPredecessor dest blk
          jsrExits := g.jsrExits ++ [limit] }
      | .ret => { g with rets := g.rets ++ [blk] }
      | .exit => g

/-- Any ret is assumed to return to any jsr. -/
def addRetEdges (g : Graph k n) : MethodLiveness k n :=
  g.jsrExits.reverse.foldl (fun ml jsrExit =>
    g.rets.reverse.foldl (fun ml ret => ml.addNormalPredecessor jsrExit ret) ml) g.ml

/-- The handlers of a block, in the order of the table and up to a handler that catches
everything all over the block. -/
def addExceptionEdges (ml : MethodLiveness k n) (blk : Fin k) :
    List CiExceptionHandler → MethodLiveness k n
  | [] => ml
  | handler :: handlers =>
    let start := (ml.blocks blk).startBci
    let limit := (ml.blocks blk).limitBci
    let intersectStart := max start handler.start
    let intersectLimit := min limit handler.limit
    if intersectStart < intersectLimit then
      let ml := ml.addExceptionPredecessor handler.handlerBci blk
      if handler.isCatchAll ∧ intersectStart = start ∧ intersectLimit = limit then ml
      else ml.addExceptionEdges blk handlers
    else ml.addExceptionEdges blk handlers

/-- The blocks and their predecessors. -/
def connect (m : CiMethod) (mblocks : CiMethodBlocks) :
    MethodLiveness mblocks.numBlocks m.maxLocals :=
  let g := (List.finRange mblocks.numBlocks).foldl
    (fun g (blk : Fin mblocks.numBlocks) =>
      addControlEdges m (mblocks.blocks blk).controlBci g blk)
    ⟨create mblocks m.maxLocals, [], []⟩
  (List.finRange mblocks.numBlocks).reverse.foldl
    (fun ml blk => ml.addExceptionEdges blk m.handlers) (addRetEdges g)

/-- `init_basic_blocks`: the array `_block_map` has an element for each byte of the code, and
`at_put` takes no other index. -/
def initBasicBlocks (m : CiMethod) (mblocks : CiMethodBlocks) :
    Option (MethodLiveness mblocks.numBlocks m.maxLocals) :=
  if ∀ blk < mblocks.numBlocks, (mblocks.blocks blk).startBci < m.codeSize then
    some (connect m mblocks)
  else none

def initGenKill (m : CiMethod) (ml : MethodLiveness k m.maxLocals) :
    MethodLiveness k m.maxLocals :=
  { ml with
    blocks := fun b => { ml.blocks b with
      genKill := .range m (ml.blocks b).startBci (ml.blocks b).limitBci } }

/-! ## The data flow -/

def workListAdd (ml : MethodLiveness k n) (b : Fin k) : MethodLiveness k n :=
  if b ∈ ml.workList then ml else { ml with workList := b :: ml.workList }

/-- `merge_normal`, and its use in `propagate`. -/
def mergeNormal (other : LocalSet n) (ml : MethodLiveness k n) (b : Fin k) : MethodLiveness k n :=
  let exit := (ml.blocks b).normalExit ∪ other
  let changed := exit ≠ (ml.blocks b).normalExit
  let ml := ml.update b fun block => { block with normalExit := exit }
  if changed then ml.workListAdd b else ml

def mergeException (other : LocalSet n) (ml : MethodLiveness k n) (b : Fin k) :
    MethodLiveness k n :=
  let exit := (ml.blocks b).exceptionExit ∪ other
  let changed := exit ≠ (ml.blocks b).exceptionExit
  let ml := ml.update b fun block => { block with exceptionExit := exit }
  if changed then ml.workListAdd b else ml

/-- The new `_entry` of a block. -/
def newEntry (b : BasicBlock k n) : LocalSet n :=
  ((b.entry ∪ b.normalExit) \ b.genKill.kill ∪ b.genKill.gen) ∪ b.exceptionExit

def propagate (ml : MethodLiveness k n) (b : Fin k) : MethodLiveness k n :=
  let entry := newEntry (ml.blocks b)
  let ml := ml.update b fun block => { block with entry := entry }
  let ml := (ml.blocks b).normalPredecessors.reverse.foldl (mergeNormal entry) ml
  (ml.blocks b).exceptionPredecessors.reverse.foldl (mergeException entry) ml

/-- All blocks are put on the work list, each in front of the last one. -/
def initWorkList (ml : MethodLiveness k n) : MethodLiveness k n :=
  { ml with workList := (List.finRange k).reverse }

/-- Take any block off the work list and propagate from it; the code takes the first. -/
def propagateFrom (ml : MethodLiveness k n) (b : Fin k) : MethodLiveness k n :=
  propagate { ml with workList := ml.workList.erase b } b

/-- The loop of `propagate_liveness`, for a number of iterations. -/
def propagateLoop : Nat → MethodLiveness k n → Option (MethodLiveness k n)
  | 0, ml => if ml.workList = [] then some ml else none
  | fuel + 1, ml =>
    match ml.workList with
    | [] => some ml
    | b :: _ => propagateLoop fuel (ml.propagateFrom b)

/-- What `compute_liveness` has before it propagates. -/
def prepare (m : CiMethod) : Option (MethodLiveness (CiMethodBlocks.new m).numBlocks m.maxLocals) :=
  (initBasicBlocks m (CiMethodBlocks.new m)).map fun ml => initWorkList (initGenKill m ml)

/-! ## Queries -/

/-- The block that a query searches backwards for. -/
def blockContaining (ml : MethodLiveness k n) : Nat → Option (Fin k)
  | 0 => ml.blockMap 0
  | bci + 1 =>
    match ml.blockMap (bci + 1) with
    | some b => some b
    | none => ml.blockContaining bci

/-- `BasicBlock::get_liveness_at`: the answer, and the block with the summary it keeps. -/
def blockLivenessAt (m : CiMethod) (debug : Bool) (block : BasicBlock k m.maxLocals) (bci : Nat) :
    LocalSet m.maxLocals × BasicBlock k m.maxLocals :=
  if ¬ debug ∧ bci = block.startBci then (block.entry, block)
  else
    let block := if block.lastBci ≠ some bci ∨ debug then
        { block with genKill := .range m bci block.limitBci, lastBci := some bci }
      else block
    ((block.normalExit \ block.genKill.kill ∪ block.genKill.gen) ∪ block.exceptionExit, block)

/-- `get_liveness_at`; `none` stands for `InvocationEntryBci`. -/
def getLivenessAt (m : CiMethod) (debug : Bool) (ml : MethodLiveness k m.maxLocals)
    (entryBci : Option Nat) : Option (LocalSet m.maxLocals × MethodLiveness k m.maxLocals) := do
  let b ← ml.blockContaining (entryBci.getD 0)
  let (answer, block) := blockLivenessAt m debug (ml.blocks b) (entryBci.getD 0)
  -- Synchronized methods use the receiver once on entry.
  let answer := if entryBci = none ∧ m.isSynchronized ∧ ¬ m.isStatic then answer ∪ .bit _ 0
    else answer
  return (answer, ml.update b fun _ => block)

end MethodLiveness

/-! ## Execution paths of a method

What holds of the bytecodes of every method, where control can go from each of
them, and which locals are read before they are written on some path.
-/

/-- Instructions that follow each other from one bci to another. -/
def Contiguous : Nat → List Instruction → Nat → Prop
  | start, [], stop => start = stop
  | start, i :: rest, stop => i.bci = start ∧ i.bci < i.nextBci ∧ Contiguous i.nextBci rest stop

namespace CiControl

/-- The targets of a transfer of control, except where a ret goes. -/
def targets : CiControl → List Nat
  | branch dest => [dest]
  | goto dest => [dest]
  | switch default dests => default :: dests
  | jsr dest => [dest]
  | _ => []

/-- Control comes back behind the instruction, for which `ciMethodBlocks` does not ask whether
the code has ended. -/
def resumes : CiControl → Bool
  | branch _ => true
  | jsr _ => true
  | _ => false

end CiControl

namespace CiMethod

variable (m : CiMethod)

/-- An instruction starts at the bci. -/
def IsStart (bci : Nat) : Prop := ∃ i ∈ m.instructions, i.bci = bci

/-- The static constraints: one instruction behind the other, and targets and the bounds of
handlers at instructions. -/
structure WellFormed : Prop where
  contiguous : Contiguous 0 m.instructions m.codeSize
  nonempty : 0 < m.codeSize
  targets : ∀ i ∈ m.instructions, ∀ t ∈ i.code.control.targets, m.IsStart t
  handlerBci : ∀ h ∈ m.handlers, m.IsStart h.handlerBci
  handlerStart : ∀ h ∈ m.handlers, m.IsStart h.start
  handlerLimit : ∀ h ∈ m.handlers, m.IsStart h.limit ∨ m.codeSize ≤ h.limit

/-- No two way branch and no jsr is the last instruction. -/
def Resumes : Prop := ∀ i ∈ m.instructions, i.code.control.resumes → i.nextBci < m.codeSize

/-- A well-formed method that control leaves by a goto, a switch, a ret, a return or a throw. -/
structure Confined : Prop extends WellFormed m where
  resumes : m.Resumes

end CiMethod

/-! ## Paths -/

namespace Instruction

/-- The locals that an instruction reads; two for a long or a double. -/
def reads (isObjectInit : Bool) (i : Instruction) : List Nat :=
  match i.code with
  | .plain (.load .long index) => [index, index + 1]
  | .plain (.load .double index) => [index, index + 1]
  | .plain (.load _ index) => [index]
  | .plain (.iinc index) => [index]
  | .plain .voidReturn => if isObjectInit then [0] else []
  | .ret index => [index]
  | _ => []

def writes (i : Instruction) : List Nat :=
  match i.code with
  | .plain (.store .long index) => [index, index + 1]
  | .plain (.store .double index) => [index, index + 1]
  | .plain (.store _ index) => [index]
  | .plain (.iinc index) => [index]
  | _ => []

end Instruction

/-- The range of a handler has the bci. -/
def CiExceptionHandler.Covers (h : CiExceptionHandler) (bci : Nat) : Prop :=
  h.start ≤ bci ∧ bci < h.limit

namespace CiMethod

variable (m : CiMethod)

/-- Control goes from an instruction to a bci without an exception. A ret may go
behind any jsr. -/
inductive NormalStep (i : Instruction) : Nat → Prop where
  | target {t : Nat} (ht : t ∈ i.code.control.targets) : NormalStep i t
  | fallThrough (hcontrol : i.code.control = .fallThrough) : NormalStep i i.nextBci
  | notTaken {dest : Nat} (hcontrol : i.code.control = .branch dest) : NormalStep i i.nextBci
  | ret (hcontrol : i.code.control = .ret) {j : Instruction} (hj : j ∈ m.instructions)
      {dest : Nat} (hjsr : j.code.control = .jsr dest) : NormalStep i j.nextBci

/-- An exception at a bci can get to a handler: none before it catches everything. -/
def ExceptionStep (bci : Nat) (handlerBci : Nat) : Prop :=
  ∃ before h after, m.handlers = before ++ h :: after ∧ h.handlerBci = handlerBci ∧
    h.Covers bci ∧ ∀ h' ∈ before, h'.isCatchAll → ¬ h'.Covers bci

/-- The local is read before it is written on some path from the bci. An exception may
come before an instruction writes. -/
inductive Live (x : Nat) : Nat → Prop where
  | read {i : Instruction} (hi : i ∈ m.instructions) (hread : x ∈ i.reads m.isObjectInit) :
      Live x i.bci
  | normal {i : Instruction} (hi : i ∈ m.instructions) (hwrite : x ∉ i.writes) {bci : Nat}
      (hstep : m.NormalStep i bci) (hlive : Live x bci) : Live x i.bci
  | exception {i : Instruction} (hi : i ∈ m.instructions) {bci : Nat}
      (hstep : m.ExceptionStep i.bci bci) (hlive : Live x bci) : Live x i.bci

end CiMethod

/-! ## What flows between the blocks -/

namespace MethodLiveness

variable {k n : Nat}

/-- The entry of a block for given exits. -/
def transfer (ml : MethodLiveness k n) (b : Fin k) (exits : LocalSet n × LocalSet n) :
    LocalSet n :=
  (exits.1 \ (ml.blocks b).genKill.kill ∪ (ml.blocks b).genKill.gen) ∪ exits.2

/-- What a block contributes to the exits of another. -/
def contribute (ml : MethodLiveness k n) (b : Fin k) (exits : LocalSet n × LocalSet n)
    (pred : Fin k) : LocalSet n × LocalSet n :=
  (if pred ∈ (ml.blocks b).normalPredecessors then ml.transfer b exits else ∅,
    if pred ∈ (ml.blocks b).exceptionPredecessors then ml.transfer b exits else ∅)

/-- The entries of the blocks that a block comes before in normal control flow. -/
def normalSuccessors (ml : MethodLiveness k n) (entry : Fin k → LocalSet n) (b : Fin k) :
    LocalSet n :=
  (Finset.univ.filter fun s => b ∈ (ml.blocks s).normalPredecessors).biUnion entry

def exceptionSuccessors (ml : MethodLiveness k n) (entry : Fin k → LocalSet n) (b : Fin k) :
    LocalSet n :=
  (Finset.univ.filter fun s => b ∈ (ml.blocks s).exceptionPredecessors).biUnion entry

end MethodLiveness

end HotSpot
