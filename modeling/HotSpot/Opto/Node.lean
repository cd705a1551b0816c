import Mathlib

/-! # The ideal graph and its meaning

The integer nodes of `node.hpp` and its descendants, as trees that stand for the
expressions of the graph, and what they compute in Java's arithmetic. A node is
its number and its inputs, so that equal trees are the same node. Every node has
an int and a long value, of which the one its opcode does not produce is zero.
-/

/-! ## Integer types of the ideal graph

`TypeInt` and `TypeLong` of `type.cpp`: intervals of 32-bit and 64-bit values,
with the count of how often they have been widened.
-/

namespace HotSpot.Opto

/-- The two integer types of Java's stack machine. -/
inductive Size where
  | int
  | long
  deriving DecidableEq, Repr

namespace Size

abbrev bits : Size → Nat
  | int => 32
  | long => 64

theorem bits_dvd (s : Size) : s.bits ∣ 2 ^ 32 := by
  cases s <;> decide

end Size

/-- `TypeInt` for `w = 32` and `TypeLong` for `w = 64`. -/
structure TypeInteger (w : Nat) where
  lo : BitVec w
  hi : BitVec w
  widen : Nat
  deriving DecidableEq, Repr

abbrev TypeInt := TypeInteger 32

abbrev TypeLong := TypeInteger 64

namespace TypeInteger

variable {w : Nat}

def widenMin : Nat := 0

def widenMax : Nat := 3

/-- A range too insignificant to consider widening. -/
def smallint : Nat := 3

/-- `make` normalises the widen count of small and of full ranges. -/
def make (lo hi : BitVec w) (widen : Nat) : TypeInteger w :=
  if lo.sle hi then
    let widen := if (hi - lo).toNat ≤ smallint then widenMin else widen
    let widen := if BitVec.allOnes w ≤ hi - lo then widenMax else widen
    ⟨lo, hi, widen⟩
  else ⟨lo, hi, widen⟩

/-- The `make` of a constant. -/
def con (c : BitVec w) : TypeInteger w := ⟨c, c, widenMin⟩

def isCon (t : TypeInteger w) : Bool := t.lo == t.hi

/-- `INT` and `LONG`. -/
def full (w : Nat) : TypeInteger w := make (BitVec.intMin w) (BitVec.intMax w) widenMax

/-- `xmeet`, which does not normalise the widen count. -/
def meet (t u : TypeInteger w) : TypeInteger w where
  lo := if t.lo.slt u.lo then t.lo else u.lo
  hi := if u.hi.slt t.hi then t.hi else u.hi
  widen := max t.widen u.widen

def higherEqual (t u : TypeInteger w) : Bool := t.meet u = u

/-- The values of the type. -/
def Contains (t : TypeInteger w) (x : BitVec w) : Prop := t.lo.sle x ∧ x.sle t.hi

instance (t : TypeInteger w) (x : BitVec w) : Decidable (t.Contains x) :=
  inferInstanceAs (Decidable (_ ∧ _))

@[simp] theorem make_lo (lo hi : BitVec w) (widen : Nat) : (make lo hi widen).lo = lo := by
  unfold make
  split <;> rfl

@[simp] theorem make_hi (lo hi : BitVec w) (widen : Nat) : (make lo hi widen).hi = hi := by
  unfold make
  split <;> rfl

theorem contains_iff {t : TypeInteger w} {x : BitVec w} :
    t.Contains x ↔ t.lo.toInt ≤ x.toInt ∧ x.toInt ≤ t.hi.toInt := by
  rw [Contains, BitVec.sle_iff_toInt_le, BitVec.sle_iff_toInt_le]

/-- The only value of a constant. -/
theorem Contains.eq_of_isCon {t : TypeInteger w} {x : BitVec w} (h : t.Contains x)
    (hcon : t.isCon = true) : x = t.lo := by
  rw [contains_iff] at h
  have heq : t.lo = t.hi := by simpa [isCon] using hcon
  rw [← heq] at h
  exact BitVec.eq_of_toInt_eq (by omega)

end TypeInteger

/-- The types that the integer nodes see. -/
inductive Ty where
  | top
  | integer (s : Size) (t : TypeInteger s.bits)
  | bottom
  deriving DecidableEq, Repr

namespace Ty

/-- `isa_int` and `isa_long`. -/
def isa (s : Size) : Ty → Option (TypeInteger s.bits)
  | integer s' t => if h : s' = s then some (h ▸ t) else none
  | _ => none

/-- `higher_equal` to an integer type. -/
def higherEqual (s : Size) (ty : Ty) (u : TypeInteger s.bits) : Bool :=
  match ty with
  | top => true
  | integer s' t => if h : s' = s then TypeInteger.higherEqual (h ▸ t) u else false
  | bottom => false

@[simp] theorem higherEqual_integer {s : Size} {t u : TypeInteger s.bits} :
    (integer s t).higherEqual s u = t.higherEqual u := by
  simp [higherEqual]

@[simp] theorem isa_integer {s : Size} {t : TypeInteger s.bits} :
    (integer s t).isa s = some t := by
  simp [isa]

@[simp] theorem isa_eq_some {s : Size} {ty : Ty} {t : TypeInteger s.bits} :
    ty.isa s = some t ↔ ty = integer s t := by
  cases ty with
  | top => simp [isa]
  | bottom => simp [isa]
  | integer s' t' =>
    by_cases h : s' = s
    · subst h
      simp [isa]
    · simp [isa, h]

end Ty

/-- The operations that ints and longs share. -/
inductive ArithOp where
  | add | sub | mul | div | mod | and | or | xor | lshift | rshift | urshift
  deriving DecidableEq, Repr

inductive BinOp where
  | arith (s : Size) (op : ArithOp)
  | cmp (s : Size)
  | cmpU
  | minI
  | maxI
  | mulHiL
  deriving DecidableEq, Repr

inductive UnOp where
  | convI2L | convL2I | castII
  /-- `Conv2B` of an int or of a pointer. A pointer is kept as a long, and null is 0. -/
  | conv2B (s : Size)
  deriving DecidableEq, Repr

inductive LoadOp where
  | loadB | loadUB | loadUS | loadS | loadI | loadUI2L
  deriving DecidableEq, Repr

/-- The `mask` of a `BoolTest`. -/
inductive BoolTest where
  | eq | ne | le | ge | lt | gt
  deriving DecidableEq, Repr

/-- A node; `idx` is its `_idx`. -/
inductive Node where
  | con (s : Size) (c : BitVec s.bits)
  /-- A node that computes no integer arithmetic, such as a parameter or a phi. -/
  | leaf (idx : Nat)
  | load (idx : Nat) (op : LoadOp) (adr : Nat)
  | un (idx : Nat) (op : UnOp) (x : Node)
  | bin (idx : Nat) (op : BinOp) (x y : Node)
  | bool (idx : Nat) (test : BoolTest) (cmp : Node)
  | cmove (idx : Nat) (bol ifFalse ifTrue : Node)
  deriving DecidableEq, Repr

structure Value where
  int : BitVec 32
  long : BitVec 64

namespace Value

def get (v : Value) : (s : Size) → BitVec s.bits
  | .int => v.int
  | .long => v.long

def of : (s : Size) → BitVec s.bits → Value
  | .int, x => ⟨x, 0⟩
  | .long, x => ⟨0, x⟩

@[simp] theorem get_of (s : Size) (x : BitVec s.bits) : (of s x).get s = x := by
  cases s <;> rfl

end Value

/-- Java masks the shift counts of ints with 31 and those of longs with 63. -/
def shiftCount (w : Nat) (y : BitVec 32) : Nat := y.toNat % w

/-- The condition codes of a comparison. -/
def compare {w : Nat} (lt : BitVec w → BitVec w → Bool) (x y : BitVec w) : BitVec 32 :=
  if lt x y then -1 else if x = y then 0 else 1

/-- The upper half of the product of two signed numbers. -/
def mulHi {w : Nat} (x y : BitVec w) : BitVec w := BitVec.ofInt w (x.toInt * y.toInt / 2 ^ w)

/-- A ring operation; the count of a shift is an int also where longs are shifted. -/
def ArithOp.apply {w : Nat} (op : ArithOp) (x y : BitVec w) (count : BitVec 32) : BitVec w :=
  match op with
  | add => x + y
  | sub => x - y
  | mul => x * y
  | div => x.sdiv y
  | mod => x.srem y
  | and => x &&& y
  | or => x ||| y
  | xor => x ^^^ y
  | lshift => x <<< shiftCount w count
  | rshift => x.sshiftRight (shiftCount w count)
  | urshift => x >>> shiftCount w count

def BinOp.apply (op : BinOp) (x y : Value) : Value :=
  match op with
  | arith s op => .of s (op.apply (x.get s) (y.get s) y.int)
  | cmp s => .of .int (compare BitVec.slt (x.get s) (y.get s))
  | cmpU => .of .int (compare BitVec.ult x.int y.int)
  | minI => .of .int (if x.int.slt y.int then x.int else y.int)
  | maxI => .of .int (if x.int.slt y.int then y.int else x.int)
  | mulHiL => .of .long (mulHi x.long y.long)

def UnOp.apply (op : UnOp) (x : Value) : Value :=
  match op with
  | convI2L => .of .long (x.int.signExtend 64)
  | convL2I => .of .int (x.long.setWidth 32)
  -- A cast narrows the type of its input, not the value.
  | castII => x
  | conv2B s => .of .int (if x.get s = 0#s.bits then 0 else 1)

/-- What a load makes of the bits at its address. -/
def LoadOp.apply (op : LoadOp) (bits : BitVec 64) : Value :=
  match op with
  | loadB => .of .int ((bits.setWidth 8).signExtend 32)
  | loadUB => .of .int ((bits.setWidth 8).setWidth 32)
  | loadUS => .of .int ((bits.setWidth 16).setWidth 32)
  | loadS => .of .int ((bits.setWidth 16).signExtend 32)
  | loadI => .of .int (bits.setWidth 32)
  | loadUI2L => .of .long ((bits.setWidth 32).setWidth 64)

def BoolTest.holds (test : BoolTest) (cc : BitVec 32) : Bool :=
  match test with
  | eq => cc = 0
  | ne => cc ≠ 0
  | le => cc.sle 0
  | ge => (0#32).sle cc
  | lt => cc.slt 0
  | gt => (0#32).slt cc

/-- The values of the nodes that compute no arithmetic, and the memory. -/
structure Env where
  leaf : Nat → Value
  memory : Nat → BitVec 64

/-- An environment in which every leaf has the same value. -/
def constantEnv (int : BitVec 32) (long : BitVec 64) : Env where
  leaf _ := ⟨int, long⟩
  memory _ := 0

namespace Node

def eval (env : Env) : Node → Value
  | con s c => .of s c
  | leaf idx => env.leaf idx
  | load _ op adr => op.apply (env.memory adr)
  | un _ op x => op.apply (x.eval env)
  | bin _ op x y => op.apply (x.eval env) (y.eval env)
  | bool _ test cmp => .of .int (if test.holds (cmp.eval env).int then 1 else 0)
  | cmove _ bol ifFalse ifTrue =>
    if (bol.eval env).int = 0 then ifFalse.eval env else ifTrue.eval env

/-- The value of the size. -/
def evalAt (env : Env) (s : Size) (n : Node) : BitVec s.bits := (n.eval env).get s

/-- No division in the tree throws. -/
def Defined (env : Env) : Node → Prop
  | un _ _ x => x.Defined env
  | bin _ op x y => x.Defined env ∧ y.Defined env ∧
      match op with
      | .arith s .div => y.evalAt env s ≠ 0#s.bits
      | .arith s .mod => y.evalAt env s ≠ 0#s.bits
      | _ => True
  | bool _ _ cmp => cmp.Defined env
  | cmove _ bol ifFalse ifTrue => bol.Defined env ∧ ifFalse.Defined env ∧ ifTrue.Defined env
  | _ => True

/-- Strips casts, up to `maxDepth` of them. -/
def uncastHelper : Nat → Node → Node
  | maxDepth + 1, un _ .castII x => uncastHelper maxDepth x
  | _, n => n

def uncast (n : Node) : Node := uncastHelper 3 n

/-- A new node. Nothing reads its number before it is in the graph. -/
def new (op : BinOp) (x y : Node) : Node := bin 0 op x y

/-- A new node of a ring operation. -/
def newArith (s : Size) (op : ArithOp) (x y : Node) : Node := new (.arith s op) x y

def newUn (op : UnOp) (x : Node) : Node := un 0 op x

/-- `intcon` and `longcon`. -/
def newCon (s : Size) (n : Int) : Node := con s (BitVec.ofInt s.bits n)

def intcon (n : Int) : Node := newCon .int n

def longcon (n : Int) : Node := newCon .long n

end Node

theorem Node.eval_uncast (env : Env) (n : Node) : n.uncast.eval env = n.eval env := by
  have hhelper : ∀ maxDepth n, (uncastHelper maxDepth n).eval env = n.eval env := by
    intro maxDepth n
    fun_induction uncastHelper maxDepth n with
    | case1 maxDepth idx x ih => rw [ih]; rfl
    | case2 => rfl
  exact hhelper 3 n

/-- What the rewrites read of a `PhaseGVN` and of the flags and the matcher. -/
structure Phase where
  type : Node → Ty
  hasMatchRuleMulHiL : Bool
  conditionalMoveLimit : Int

/-- The value is one of the type. -/
def Ty.Holds (ty : Ty) (v : Value) : Prop :=
  match ty with
  | top => False
  | integer s t => t.Contains (v.get s)
  | bottom => True

/-- Every node of the tree has a value of its type. -/
def Phase.Respects (phase : Phase) (env : Env) : Node → Prop
  | .un idx op x => (phase.type (.un idx op x)).Holds ((Node.un idx op x).eval env) ∧
      phase.Respects env x
  | .bin idx op x y => (phase.type (.bin idx op x y)).Holds ((Node.bin idx op x y).eval env) ∧
      phase.Respects env x ∧ phase.Respects env y
  | n => (phase.type n).Holds (n.eval env)

namespace Phase.Respects

variable {phase : Phase} {env : Env} {n x y : Node}

theorem holds (h : phase.Respects env n) : (phase.type n).Holds (n.eval env) := by
  cases n with
  | un idx op x => exact h.1
  | bin idx op x y => exact h.1
  | con s c => exact h
  | leaf idx => exact h
  | load idx op adr => exact h
  | bool idx test cmp => exact h
  | cmove idx bol ifFalse ifTrue => exact h

theorem left {idx : Nat} {op : BinOp} (h : phase.Respects env (.bin idx op x y)) :
    phase.Respects env x := h.2.1

theorem right {idx : Nat} {op : BinOp} (h : phase.Respects env (.bin idx op x y)) :
    phase.Respects env y := h.2.2

theorem contains {s : Size} {t : TypeInteger s.bits} (h : phase.Respects env n)
    (ht : phase.type n = .integer s t) : t.Contains (n.evalAt env s) := by
  have hn := h.holds
  rw [ht] at hn
  exact hn

/-- A node whose type is a constant has that value. -/
theorem eq_of_isCon {s : Size} {t : TypeInteger s.bits} (h : phase.Respects env n)
    (ht : phase.type n = .integer s t) (hcon : t.isCon = true) : n.evalAt env s = t.lo :=
  (h.contains ht).eq_of_isCon hcon

end Phase.Respects

section Eval

variable (env : Env) (s : Size) (x y : Node)

@[simp] theorem evalAt_newArith (op : ArithOp) : (Node.newArith s op x y).evalAt env s =
    op.apply (x.evalAt env s) (y.evalAt env s) (y.evalAt env .int) :=
  Value.get_of _ _

@[simp] theorem evalAt_arith (idx : Nat) (op : ArithOp) :
    (Node.bin idx (.arith s op) x y).evalAt env s =
      op.apply (x.evalAt env s) (y.evalAt env s) (y.evalAt env .int) :=
  Value.get_of _ _

@[simp] theorem evalAt_newCon (n : Int) :
    (Node.newCon s n).evalAt env s = BitVec.ofInt s.bits n :=
  Value.get_of _ _

@[simp] theorem evalAt_intcon (n : Int) : (Node.intcon n).evalAt env .int = BitVec.ofInt 32 n := rfl

@[simp] theorem evalAt_longcon (n : Int) :
    (Node.longcon n).evalAt env .long = BitVec.ofInt 64 n := rfl

@[simp] theorem evalAt_con (c : BitVec s.bits) : (Node.con s c).evalAt env s = c :=
  Value.get_of _ _

@[simp] theorem evalAt_mulHiL : (Node.new .mulHiL x y).evalAt env .long =
    mulHi (x.evalAt env .long) (y.evalAt env .long) := rfl

/-- Small constant shift counts are not changed by the mask. -/
theorem shiftCount_ofInt_natCast {w n : Nat} (hw : w ∣ 2 ^ 32) (hn : n < w) :
    shiftCount w (BitVec.ofInt 32 n) = n := by
  rw [shiftCount, BitVec.ofInt_natCast, BitVec.toNat_ofNat, Nat.mod_mod_of_dvd _ hw,
    Nat.mod_eq_of_lt hn]

theorem evalAt_lshift_intcon {n : Nat} (hn : n < s.bits) :
    (Node.newArith s .lshift x (.intcon n)).evalAt env s = x.evalAt env s <<< n := by
  rw [evalAt_newArith, evalAt_intcon, ArithOp.apply, shiftCount_ofInt_natCast s.bits_dvd hn]

theorem evalAt_rshift_intcon {n : Nat} (hn : n < s.bits) :
    (Node.newArith s .rshift x (.intcon n)).evalAt env s = (x.evalAt env s).sshiftRight n := by
  rw [evalAt_newArith, evalAt_intcon, ArithOp.apply, shiftCount_ofInt_natCast s.bits_dvd hn]

theorem evalAt_urshift_intcon {n : Nat} (hn : n < s.bits) :
    (Node.newArith s .urshift x (.intcon n)).evalAt env s = x.evalAt env s >>> n := by
  rw [evalAt_newArith, evalAt_intcon, ArithOp.apply, shiftCount_ofInt_natCast s.bits_dvd hn]

end Eval

end HotSpot.Opto
