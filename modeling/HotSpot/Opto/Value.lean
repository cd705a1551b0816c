import HotSpot.Opto.Node

/-! # Range inference

The `Value` of the integer nodes in `addnode.cpp`, `subnode.cpp`, `mulnode.cpp` and
`divnode.cpp`: the type of a node from the types of its inputs. The nodes for ints
and for longs differ in the width only, unless two definitions are given.
-/

namespace HotSpot.Opto

namespace TypeInteger

variable {w : Nat}

def zero (w : Nat) : TypeInteger w := con 0#w

def one (w : Nat) : TypeInteger w := con 1#w

/-- `POS`, the non-negative numbers. -/
def pos (w : Nat) : TypeInteger w := make 0#w (BitVec.intMax w) widenMin

/-- `BOOL`, 0 or 1. -/
def bool : TypeInt := make 0 1 widenMin

/-- `CC` and the condition codes of comparisons with a known outcome. -/
def cc : TypeInt := make (-1) 1 widenMin

def ccLT : TypeInt := make (-1) (-1) widenMin

def ccGT : TypeInt := make 1 1 widenMin

def ccEQ : TypeInt := make 0 0 widenMin

def ccLE : TypeInt := make (-1) 0 widenMin

def ccGE : TypeInt := make 0 1 widenMin

end TypeInteger

open TypeInteger

section Ring

variable {w : Nat} (r0 r1 : TypeInteger w)

/-! ## Local flavors of addition, subtraction and multiplication -/

/-- `AddINode::add_ring` and `AddLNode::add_ring`. -/
def addRing : TypeInteger w :=
  let lo := r0.lo + r1.lo
  let hi := r0.hi + r1.hi
  let widen := max r0.widen r1.widen
  if r0.isCon && r1.isCon then make lo hi widen
  else if (r0.lo &&& r1.lo).slt 0#w && (0#w).sle lo then
    make (BitVec.intMin w) (BitVec.intMax w) widen -- Underflow on the low side
  else if (~~~(r0.hi ||| r1.hi)).slt 0#w && hi.slt 0#w then
    make (BitVec.intMin w) (BitVec.intMax w) widen -- Overflow on the high side
  else if hi.slt lo then make (BitVec.intMin w) (BitVec.intMax w) widen -- Handle overflow
  else make lo hi widen

/-- `SubINode::sub` and `SubLNode::sub`. -/
def subRing : TypeInteger w :=
  let lo := r0.lo - r1.hi
  let hi := r0.hi - r1.lo
  if ((0#w).sle (r0.lo ^^^ r1.hi) || (0#w).sle (r0.lo ^^^ lo)) &&
      ((0#w).sle (r0.hi ^^^ r1.lo) || (0#w).sle (r0.hi ^^^ hi)) then
    make lo hi (max r0.widen r1.widen)
  else full w -- Overflow; assume all integers

/-- The product and its truth, for the overflow test. -/
def mulOverflows (x y : BitVec w) : Bool := (x * y).toInt ≠ x.toInt * y.toInt

/-- `MulINode::mul_ring` and `MulLNode::mul_ring`. -/
def mulRing : TypeInteger w :=
  let A := r0.lo * r1.lo
  let B := r0.lo * r1.hi
  let C := r0.hi * r1.lo
  let D := r0.hi * r1.hi
  if mulOverflows r0.lo r1.lo || mulOverflows r0.lo r1.hi || mulOverflows r0.hi r1.lo ||
      mulOverflows r0.hi r1.hi then full w
  else
    let lo0 := if A.slt B then A else B -- Sort range endpoints
    let hi0 := if A.slt B then B else A
    if C.slt D then
      make (if C.slt lo0 then C else lo0) (if hi0.slt D then D else hi0) (max r0.widen r1.widen)
    else
      make (if D.slt lo0 then D else lo0) (if hi0.slt C then C else hi0) (max r0.widen r1.widen)

/-- What `AndINode::mul_ring` and `AndLNode::mul_ring` share; `rest` is for masks that are
not positive constants. -/
def andRing (rest : TypeInteger w) : TypeInteger w :=
  let widen := max r0.widen r1.widen
  if r0.isCon = false && r1.isCon = false then full w
  else if r0.isCon && r1.isCon then con (r0.lo &&& r1.lo)
  else if r0.isCon && (0#w).slt r0.lo then make 0#w r0.lo widen
  else if r1.isCon && (0#w).slt r1.lo then make 0#w r1.lo widen
  else rest

def AndINode.mulRing (r0 r1 : TypeInt) : TypeInt :=
  andRing r0 r1 (if r0 = bool ∨ r1 = bool then bool else full 32)

def AndLNode.mulRing (r0 r1 : TypeLong) : TypeLong := andRing r0 r1 (full 64)

/-- A logical operation on constants. -/
def bitRing (op : BitVec w → BitVec w → BitVec w) : TypeInteger w :=
  if r0.isCon && r1.isCon then con (op r0.lo r1.lo) else full w

def OrINode.addRing (r0 r1 : TypeInt) : TypeInt :=
  -- If both args are bool, can figure out better types
  if r0 = bool ∧ r1 = one 32 then one 32
  else if r0 = bool ∧ r1 = bool then bool
  else if r0 = one 32 ∧ r1 = bool then one 32
  else bitRing r0 r1 (· ||| ·)

def OrLNode.addRing (r0 r1 : TypeLong) : TypeLong := bitRing r0 r1 (· ||| ·)

def XorINode.addRing (r0 r1 : TypeInt) : TypeInt :=
  -- Complementing a boolean?
  if r0 = bool ∧ (r1 = one 32 ∨ r1 = bool) then bool else bitRing r0 r1 (· ^^^ ·)

def XorLNode.addRing (r0 r1 : TypeLong) : TypeLong := bitRing r0 r1 (· ^^^ ·)

def MaxINode.addRing (r0 r1 : TypeInt) : TypeInt :=
  make (if r1.lo.slt r0.lo then r0.lo else r1.lo) (if r1.hi.slt r0.hi then r0.hi else r1.hi)
    (max r0.widen r1.widen)

def MinINode.addRing (r0 r1 : TypeInt) : TypeInt :=
  make (if r0.lo.slt r1.lo then r0.lo else r1.lo) (if r0.hi.slt r1.hi then r0.hi else r1.hi)
    (max r0.widen r1.widen)

/-! ## Quotients and remainders -/

/-- The ranges of `DivINode::Value` and `DivLNode::Value`. -/
def divRing : TypeInteger w :=
  let widen := max r0.widen r1.widen
  if r1.isCon && r1.lo ≠ 0#w then
    let d := r1.lo
    if (0#w).sle d then make (r0.lo.sdiv d) (r0.hi.sdiv d) widen
    else if d = -1#w ∧ r0.lo = BitVec.intMin w then
      -- do not support holes, 'hi' must go to either the smallest or the largest number
      make (BitVec.intMin w) (if r0.hi = BitVec.intMin w then BitVec.intMin w else BitVec.intMax w)
        widen
    else make (r0.hi.sdiv d) (r0.lo.sdiv d) widen
  else if r0.isCon then
    let d := r0.lo
    if d.slt 0#w then
      if d = BitVec.intMin w then
        make (BitVec.intMin w) ((BitVec.intMax w).sdiv 2#w + 1#w) widen
      else make d (-d) widen
    else make (-d) d widen
  else full w -- Otherwise we give up all hope

/-- The ranges of `ModINode::Value` and `ModLNode::Value`. -/
def modRing : TypeInteger w :=
  if r0.isCon = false || r1.isCon = false then
    if (0#w).sle r0.lo && (0#w).sle r1.lo then pos w else full w
  else if r1.lo = 0#w then pos w -- Mod by zero?  Throw exception at runtime!
  else if r0.lo = BitVec.intMin w ∧ r1.lo = -1#w then zero w
  else con (r0.lo.srem r1.lo)

/-! ## Shifts -/

/-- The range of a left shift by a constant. -/
def lshiftRing (shift : Nat) (r2 : TypeInt) : TypeInteger w :=
  if r0.isCon = false then
    if (r0.lo <<< shift).sshiftRight shift = r0.lo ∧
      (r0.hi <<< shift).sshiftRight shift = r0.hi then
      -- No overflow.  The range shifts up cleanly.
      make (r0.lo <<< shift) (r0.hi <<< shift) (max r0.widen r2.widen)
    else full w
  else con (r0.lo <<< shift)

/-- The range of a signed right shift by a constant. -/
def rshiftRing (shift : Nat) (r2 : TypeInt) : TypeInteger w :=
  make (r0.lo.sshiftRight shift) (r0.hi.sshiftRight shift) (max r0.widen r2.widen)

/-- The range of an unsigned right shift by a constant. -/
def urshiftRing (shift : Nat) (r2 : TypeInt) : TypeInteger w :=
  let lo := r0.lo >>> shift
  let hi := r0.hi >>> shift
  if (0#w).sle r0.hi && r0.lo.slt 0#w then
    -- There are two separate sub-domains: the positive half and the negative half.
    let negHi := BitVec.allOnes w >>> shift
    let posLo := 0#w >>> shift
    make (if lo.slt posLo then lo else posLo) (if hi.slt negHi then negHi else hi)
      (max r0.widen r2.widen)
  else make lo hi (max r0.widen r2.widen)

/-! ## Comparisons -/

/-- `CmpINode::sub` and `CmpLNode::sub`. -/
def cmpRing : TypeInt :=
  if r0.hi.slt r1.lo then ccLT
  else if r1.hi.slt r0.lo then ccGT
  else if r0.isCon && r1.isCon then ccEQ
  else if r0.hi = r1.lo then ccLE
  else if r0.lo = r1.hi then ccGE
  else cc

end Ring

/-- Whether a node is the remainder by the node `y`, as `same` sees it. -/
def isModBy (same : Node → Node → Bool) (n y : Node) : Bool :=
  match n with
  | .bin _ (.arith .int .mod) _ y' => same y' y
  | _ => false

/-- `CmpUNode::sub`. -/
def CmpUNode.sub (in1 in2 : Node) (r0 r1 : TypeInt) : TypeInt :=
  -- The range check of a hash index, which is mod'ed to the table size, is useless.
  let nonneg := (0#32).sle r0.lo && (0#32).sle r1.lo
  let modBy := nonneg && isModBy (fun x y => x = y) in1 in2
  let otherwise := if nonneg && isModBy (fun x y => x.uncast = y.uncast) in1 in2 then ccLT else cc
  -- If either one has both negative and positive values, it acts as an unsigned bottom.
  let bot0 := (r0.lo ^^^ r0.hi).slt 0#32
  let bot1 := (r1.lo ^^^ r1.hi).slt 0#32
  if bot0 || bot1 then
    if r0.lo = 0 ∧ r0.hi = 0 then ccLE
    else if r1.lo = 0 ∧ r1.hi = 0 then ccGE
    else otherwise
  else if r0.hi.ult r1.lo then ccLT
  else if r1.hi.ult r0.lo then ccGT
  else if r0.hi = r1.lo ∧ r0.lo = r1.hi then ccEQ
  else if r1.hi.ule r0.lo then ccGE
  else if r0.hi.ule r1.lo then if modBy then ccLT else ccLE
  else otherwise

/-! ## Value -/

/-- Applies a function to the ranges of two types; other types are no inputs of the node. -/
def withRanges (s0 s1 : Size) (t1 t2 : Ty)
    (f : TypeInteger s0.bits → TypeInteger s1.bits → Ty) : Ty :=
  match t1.isa s0, t2.isa s1 with
  | some r0, some r1 => f r0 r1
  | _, _ => .bottom

/-- `AddNode::Value`. -/
def AddNode.value (s : Size) (addId : TypeInteger s.bits)
    (addRing : TypeInteger s.bits → TypeInteger s.bits → TypeInteger s.bits) (t1 t2 : Ty) : Ty :=
  let bot := Ty.integer s (full s.bits)
  if t1 = .top ∨ t2 = .top then .top
  else if t1 = bot ∨ t2 = bot ∨ t1 = .bottom ∨ t2 = .bottom then bot
  -- Check for an addition involving the additive identity
  else if t1.higherEqual s addId then t2
  else if t2.higherEqual s addId then t1
  else withRanges s s t1 t2 fun r0 r1 => .integer s (addRing r0 r1)

/-- `SubNode::Value` of a node that is none of its own inputs. -/
def SubNode.value (s sOut : Size) (addId bot : TypeInteger sOut.bits) (in1 in2 : Node)
    (sub : TypeInteger s.bits → TypeInteger s.bits → TypeInteger sOut.bits) (t1 t2 : Ty) : Ty :=
  if t1 = .top ∨ t2 = .top then .top
  -- Equal?  Subtract is zero
  else if in1.uncast = in2.uncast then .integer sOut addId
  else if t1 = .bottom ∨ t2 = .bottom then .integer sOut bot
  else withRanges s s t1 t2 fun r0 r1 => .integer sOut (sub r0 r1)

/-- `MulNode::Value`. -/
def MulNode.value (s : Size)
    (mulRing : TypeInteger s.bits → TypeInteger s.bits → TypeInteger s.bits) (t1 t2 : Ty) : Ty :=
  if t1 = .top ∨ t2 = .top then .top
  -- Either input is ZERO ==> the result is ZERO.
  else if t1.higherEqual s (zero s.bits) ∨ t2.higherEqual s (zero s.bits) then
    .integer s (zero s.bits)
  else if t1 = .bottom ∨ t2 = .bottom then .integer s (full s.bits)
  else withRanges s s t1 t2 fun r0 r1 => .integer s (mulRing r0 r1)

/-- `DivINode::Value` and `DivLNode::Value`. -/
def divValue (s : Size) (in1 in2 : Node) (t1 t2 : Ty) : Ty :=
  let bot := Ty.integer s (full s.bits)
  if t1 = .top ∨ t2 = .top then .top
  -- x/x == 1 since we always generate the dynamic divisor check for 0.
  else if in1 = in2 then .integer s (one s.bits)
  else if t1 = bot ∨ t2 = bot ∨ t1 = .bottom ∨ t2 = .bottom then bot
  else withRanges s s t1 t2 fun r0 r1 => .integer s (divRing r0 r1)

/-- `ModINode::Value` and `ModLNode::Value`. -/
def modValue (s : Size) (in1 in2 : Node) (t1 t2 : Ty) : Ty :=
  let bot := Ty.integer s (full s.bits)
  if t1 = .top ∨ t2 = .top then .top
  -- We always generate the dynamic check for 0.
  else if t1 = .integer s (zero s.bits) then .integer s (zero s.bits)
  else if in1 = in2 then .integer s (zero s.bits)
  else if t1 = bot ∨ t2 = bot ∨ t1 = .bottom ∨ t2 = .bottom then bot
  else withRanges s s t1 t2 fun r0 r1 => .integer s (modRing r0 r1)

/-- What the shifts share: a shift by a constant that is no multiple of the width has the
range `shifted`. The types that make the left shift give up are `giveUp`. -/
def shiftValue (s : Size) (giveUp : Ty → Bool)
    (shifted : TypeInteger s.bits → Nat → TypeInt → TypeInteger s.bits) (t1 t2 : Ty) : Ty :=
  let bot := Ty.integer s (full s.bits)
  if t1 = .top ∨ t2 = .top then .top
  -- Left input is ZERO ==> the result is ZERO.
  else if t1 = .integer s (zero s.bits) then .integer s (zero s.bits)
  -- Shift by zero does nothing
  else if t2 = .integer .int (zero 32) then t1
  else if giveUp t1 ∨ t2 = .integer .int (full 32) ∨ t1 = .bottom ∨ t2 = .bottom then bot
  else withRanges s .int t1 t2 fun r1 r2 =>
    if r2.isCon = false then bot
    -- Shift by a multiple of the width does nothing
    else if shiftCount s.bits r2.lo = 0 then t1
    else .integer s (shifted r1 (shiftCount s.bits r2.lo) r2)

/-- `Value` of the nodes for the operations that ints and longs share. -/
def ArithOp.value (s : Size) (op : ArithOp) (in1 in2 : Node) (t1 t2 : Ty) : Ty :=
  match op with
  | add => AddNode.value s (zero s.bits) addRing t1 t2
  | or => AddNode.value s (zero s.bits)
      (match s with | .int => OrINode.addRing | .long => OrLNode.addRing) t1 t2
  | xor => AddNode.value s (zero s.bits)
      (match s with | .int => XorINode.addRing | .long => XorLNode.addRing) t1 t2
  | sub => SubNode.value s s (zero s.bits) (full s.bits) in1 in2 subRing t1 t2
  | mul => MulNode.value s mulRing t1 t2
  | and => MulNode.value s
      (match s with | .int => AndINode.mulRing | .long => AndLNode.mulRing) t1 t2
  | div => divValue s in1 in2 t1 t2
  | mod => modValue s in1 in2 t1 t2
  | lshift => shiftValue s (fun t => t = .integer s (full s.bits)) lshiftRing t1 t2
  | rshift => shiftValue s (fun _ => false) rshiftRing t1 t2
  | urshift => shiftValue s (fun _ => false) urshiftRing t1 t2

/-- `Value` of a node with the inputs `in1` and `in2`, whose types are `t1` and `t2`. -/
def BinOp.value (op : BinOp) (in1 in2 : Node) (t1 t2 : Ty) : Ty :=
  match op with
  | arith s op => op.value s in1 in2 t1 t2
  | cmp s => SubNode.value s .int (zero 32) cc in1 in2 cmpRing t1 t2
  | cmpU => SubNode.value .int .int (zero 32) cc in1 in2 (CmpUNode.sub in1 in2) t1 t2
  | minI => AddNode.value .int (con (BitVec.intMax 32)) MinINode.addRing t1 t2
  | maxI => AddNode.value .int (con (BitVec.intMin 32)) MaxINode.addRing t1 t2
  | mulHiL =>
    if t1 = .top ∨ t2 = .top then .top
    -- It is not worth trying to constant fold this stuff!
    else .integer .long (full 64)

end HotSpot.Opto
