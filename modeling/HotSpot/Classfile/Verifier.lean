import HotSpot.Classfile.CurrentFrame
import HotSpot.Interpreter.Bytecodes

/-! # The split verifier

`ClassVerifier::verify_method` of `verifier.cpp`: one pass over the bytecodes of a method that
keeps a frame of types and compares it with the frames of the stack map table.
-/

namespace HotSpot

open ClassFileParser

/-! ## Classes and methods -/

/-- A type that `SignatureStream` finds in a signature. -/
inductive JavaType where
  | boolean | byte | char | short | int | long | float | double
  | reference (name : Bytes)
  deriving DecidableEq, Repr

/-- A valid method signature; nothing is returned by a `void` method. -/
structure MethodSignature where
  args : List JavaType
  result : Option JavaType
  deriving DecidableEq, Repr

/-- `change_sig_to_verificationType` -/
def JavaType.toVerificationTypes : JavaType → List VerificationType
  | reference name => [.reference name]
  | long => [.long, .long2]
  | double => [.double, .double2]
  | int | boolean | byte | char | short => [.integer]
  | float => [.float]

def MethodSignature.argTypes (s : MethodSignature) : List VerificationType :=
  s.args.flatMap (·.toVerificationTypes)

/-- The return type that `set_locals_from_arg` gives. -/
def MethodSignature.returnType (s : MethodSignature) : VerificationType :=
  match s.result with
  | none => .bogus
  | some .boolean => .boolean
  | some .byte => .byte
  | some .char => .char
  | some .short => .short
  | some .int => .integer
  | some .long => .long
  | some .float => .float
  | some .double => .double
  | some (.reference name) => .reference name

/-- A constant of the constant pool that bytecodes refer to. -/
inductive Constant where
  | integer | float | long | double | string
  /-- `is_pseudo_string_at` -/
  | pseudoString
  | klass (name : Bytes)
  | fieldref (className name : Bytes) (type : JavaType)
  | methodref (className name : Bytes) (signature : MethodSignature)
  | interfaceMethodref (className name : Bytes) (signature : MethodSignature)
  | nameAndType (name : Bytes) (signature : MethodSignature)
  deriving DecidableEq, Repr

/-- The class that is verified. The constructors of other classes are looked up in them, which may
fail to load. -/
structure ClassVerifier (K : Type) where
  hierarchy : ClassHierarchy K
  className : Bytes
  /-- The names of the superclasses, from the direct one on. -/
  superNames : List Bytes
  constants : Nat → Option Constant
  /-- Whether the constructor of a class is protected and the class in another package. -/
  isProtectedInit : Bytes → MethodSignature → Option Bool

/-- <init> -/
def MethodCode.objectInitializerName : Bytes := [0x3C, 0x69, 0x6E, 0x69, 0x74, 0x3E]

structure MethodCode where
  name : Bytes
  isStatic : Bool
  signature : MethodSignature
  maxStack : Nat
  maxLocals : Nat
  /-- The parser has checked that the arguments fit into the locals. -/
  args_le : (if isStatic then 0 else 1) + signature.argTypes.length ≤ maxLocals

namespace MethodCode

def isObjectInitializer (m : MethodCode) : Bool := m.name = objectInitializerName

end MethodCode

namespace VerificationType

/-- The loop of `dimensions` goes one step past the last dimension. -/
def dimensions : VerificationType → Nat
  | reference name => (name.takeWhile (· = Letter.array)).length + 1
  | _ => 1

end VerificationType

namespace ClassVerifier

open VerificationType CurrentFrame

variable {K : Type} [DecidableEq K] (v : ClassVerifier K)

/-- `current_type` -/
def currentType : VerificationType := .reference v.className

/-! ## Helpers -/

/-- A query of `is_assignable_from` -/
def isAssignable (target source : VerificationType) : VerifierM Bool :=
  match target.isAssignableFrom v.hierarchy source with
  | none => throw .pendingException
  | some b => pure b

/-- A check that reports an error when it fails. -/
def require (b : Bool) (e : VerifyError) : VerifierM Unit :=
  if b then pure () else throw e

/-- A lookup in other classes, which may leave an exception. -/
def lookup {α : Type} : Option α → VerifierM α
  | none => throw .pendingException
  | some a => pure a

/-- `verify_cp_class_type` with `cp_index_to_type` -/
def classTypeAt (index : Nat) : VerifierM Bytes :=
  match v.constants index with
  | some (.klass name) => pure name
  | _ => throw .illegalConstant

def popOperand : Kind → VerifierM Unit
  | .int => do let _ ← popStack v.hierarchy .integer
  | .long => popStack2 v.hierarchy .long2 .long
  | .float => do let _ ← popStack v.hierarchy .float
  | .double => popStack2 v.hierarchy .double2 .double
  | .reference => do let _ ← popStack v.hierarchy .referenceCheck

def popOperands : List Kind → VerifierM Unit
  | [] => pure ()
  | kind :: kinds => do
      v.popOperand kind
      popOperands kinds

/-! ## Instructions -/

/-- The test of `verify_invoke_init` for a protected constructor of a superclass. -/
def checkProtectedInit (className : Bytes) (signature : MethodSignature) : VerifierM Unit :=
  if className ∉ v.superNames then pure ()
  else do
    if ← lookup (v.isProtectedInit className signature) then
      let assignable ← v.isAssignable v.currentType (.reference className)
      require assignable .badProtectedAccess

/-- `verify_invoke_init`; the result is `this_uninit`. -/
def verifyInvokeInit (code : Bytes) (className : Bytes) (signature : MethodSignature) :
    VerifierM Bool := do
  let type ← popStack v.hierarchy .referenceCheck
  match type with
  | .uninitialized newOffset =>
    if newOffset = bciForThis then do
      -- the constructor of this class or of one of its superclasses
      require (className ∈ v.className :: v.superNames) .badInitCall
      initializeObject type v.currentType
      return true
    else do
      require (newOffset + 3 ≤ code.length ∧ Bytecode.u1At code newOffset = 187) .expectingNew
      let newClass ← v.classTypeAt (Bytecode.u2At code (newOffset + 1))
      require (newClass = className) .callToWrongInit
      v.checkProtectedInit newClass signature
      initializeObject type (.reference newClass)
      return false
  | _ => throw .badInitOperand

def verifyMultianewarray (index dim : Nat) : VerifierM Unit := do
  let name ← v.classTypeAt index
  let newArrayType := VerificationType.reference name
  require newArrayType.isArray .illegalMultianewarrayIndex
  require (1 ≤ dim ∧ dim ≤ newArrayType.dimensions) .illegalDimension
  v.popOperands (List.replicate dim .int)
  pushStack newArrayType

/-! ## Methods -/

variable (m : MethodCode)

/-- The receiver and the arguments in `set_locals_from_arg`. -/
def argumentTypes : List VerificationType :=
  (if m.isStatic then []
    else if m.isObjectInitializer ∧ v.className ≠ javaLangObject then [uninitializedThis]
    else [v.currentType]) ++ m.signature.argTypes

/-- The initial stack map frame -/
def initialFrame : CurrentFrame where
  maxStack := m.maxStack
  localsSize := (v.argumentTypes m).length
  locals := v.argumentTypes m ++
    List.replicate (m.maxLocals - (v.argumentTypes m).length) .bogus
  stack := []
  flagThisUninit := !m.isStatic ∧ m.isObjectInitializer ∧ v.className ≠ javaLangObject

end ClassVerifier

end HotSpot
