import HotSpot.Classfile.Signature

/-! # Bytecodes

The instructions of a method as `RawBytecodeStream` reads them: the groups of opcodes that
`ClassVerifier::verify_method` treats alike, with their operands.
-/

namespace HotSpot

open ClassFileParser

/-- What a load, a store, a constant or a return is about. -/
inductive Kind where
  | int | long | float | double | reference
  deriving DecidableEq, Repr

/-- The elements of the array of a load or store. -/
inductive ElementKind where
  | int | long | float | double | reference | byte | char | short
  deriving DecidableEq, Repr

inductive StackOp where
  | pop | pop2 | dup | dupX1 | dupX2 | dup2 | dup2X1 | dup2X2 | swap
  deriving DecidableEq, Repr

/-- Arithmetic, conversions and comparisons. -/
inductive ArithOp where
  | iadd | ladd | fadd | dadd | isub | lsub | fsub | dsub | imul | lmul | fmul | dmul
  | idiv | ldiv | fdiv | ddiv | irem | lrem | frem | drem | ineg | lneg | fneg | dneg
  | ishl | lshl | ishr | lshr | iushr | lushr | iand | land | ior | lor | ixor | lxor
  | i2l | i2f | i2d | l2i | l2f | l2d | f2i | f2l | f2d | d2i | d2l | d2f | i2b | i2c | i2s
  | lcmp | fcmpl | fcmpg | dcmpl | dcmpg
  deriving DecidableEq, Repr

inductive FieldOp where
  | getstatic | putstatic | getfield | putfield
  deriving DecidableEq, Repr

inductive InvokeOp where
  | invokevirtual | invokespecial | invokestatic | invokeinterface | invokedynamic
  deriving DecidableEq, Repr

/-- A bytecode with its operands. A target is the bci that a branch goes to. -/
inductive Bytecode where
  | nop
  /-- aconst_null, the other constants, bipush and sipush -/
  | const (kind : Kind)
  /-- ldc and ldc_w -/
  | ldc (index : Nat)
  | ldc2W (index : Nat)
  | load (kind : Kind) (index : Nat)
  | store (kind : Kind) (index : Nat)
  | arrayLoad (element : ElementKind)
  | arrayStore (element : ElementKind)
  | stack (op : StackOp)
  | arith (op : ArithOp)
  | iinc (index : Nat)
  /-- ifeq .. ifle -/
  | ifZero (target : Int)
  | ifICmp (target : Int)
  | ifACmp (target : Int)
  /-- ifnull and ifnonnull -/
  | ifNull (target : Int)
  /-- goto and goto_w -/
  | goto (target : Int)
  | tableswitch (padding : Bytes) (low high default : Int) (targets : List Int)
  | lookupswitch (padding : Bytes) (keyCount default : Int) (pairs : List (Int × Int))
  /-- ireturn .. areturn -/
  | valueReturn (kind : Kind)
  | voidReturn
  | field (op : FieldOp) (index : Nat)
  /-- The bytes after the index are read of invokeinterface and invokedynamic only. -/
  | invoke (op : InvokeOp) (index : Nat) (third fourth : Nat)
  | new (index : Nat)
  | newarray (code : Nat)
  | anewarray (index : Nat)
  | arraylength
  | athrow
  | checkcast (index : Nat)
  | instanceof (index : Nat)
  /-- monitorenter and monitorexit -/
  | monitor
  | multianewarray (index dim : Nat)
  deriving DecidableEq, Repr

namespace Bytecode

/-! ## Operands -/

def u1At (code : Bytes) (i : Nat) : Nat := (code.getD i 0).toNat

/-- `Bytes::get_Java_u2` -/
def u2At (code : Bytes) (i : Nat) : Nat := u1At code i * 256 + u1At code (i + 1)

/-- `Bytes::get_Java_u4` -/
def u4At (code : Bytes) (i : Nat) : Nat := u2At code i * 65536 + u2At code (i + 2)

/-- The cast of `n` to `short`. -/
def toShort (n : Nat) : Int := if n < 0x8000 then n else n - 0x10000

/-- The cast of `n` to `jint`. -/
def toJint (n : Nat) : Int := if n < 0x80000000 then n else n - 0x100000000

def jintAt (code : Bytes) (i : Nat) : Int := toJint (u4At code i)

/-- The code array starts at a multiple of four. -/
def alignedBcp (bci : Nat) : Nat := (bci + 4) / 4 * 4

end Bytecode

end HotSpot
