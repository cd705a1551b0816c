import HotSpot.Classfile.ArgumentFrame

/-! # The arrays of the current frame

`StackMapFrame` of `stackMapFrame.hpp` with its two arrays and their sizes as the verifier updates
them, and the assertions on the way.
-/

namespace HotSpot

open VerificationType

namespace VerificationType

/-- `is_check` -/
def isCheck : VerificationType → Bool
  | referenceCheck | category1Check | category2Check | category2SecondCheck => true
  | _ => false

end VerificationType

inductive FrameAssertion where
  /-- Must be a real type -/
  | mustBeRealType
  /-- must be long/double -/
  | mustBeLong
  /-- must be long/double_2 -/
  | mustBeLong2
  /-- Local variable table overflow -/
  | tableOverflow
  /-- Local variable table underflow -/
  | tableUnderflow
  /-- holes must be bogus type -/
  | holesMustBeBogus
  deriving DecidableEq, Repr

inductive FrameFailure where
  | assertion (a : FrameAssertion)
  | verifyError (e : VerifyError)
  deriving DecidableEq, Repr

/-- The fields of a `StackMapFrame`. -/
structure FrameArrays where
  localsSize : Int
  stackSize : Int
  maxLocals : Int
  maxStack : Int
  flagThisUninit : Bool
  locals : List VerificationType
  stack : List VerificationType
  deriving DecidableEq, Repr

abbrev FrameM := StateT FrameArrays (Except FrameFailure)

namespace FrameArrays

def check (b : Bool) (a : FrameAssertion) : Except FrameFailure Unit :=
  if b then .ok () else .error (.assertion a)

/-! ## Construction -/

/-- The constructor for the frame of the type checker -/
def init (maxLocals maxStack : UInt16) : FrameArrays where
  localsSize := 0
  stackSize := 0
  maxLocals := maxLocals.toNat
  maxStack := maxStack.toNat
  flagThisUninit := false
  locals := List.replicate maxLocals.toNat bogus
  stack := List.replicate maxStack.toNat bogus

/-- The types of an argument are stored from `index` on. -/
def storeTypes (locals : List VerificationType) (index : Nat) :
    List VerificationType → List VerificationType
  | [] => locals
  | t :: ts => storeTypes (locals.set index t) (index + 1) ts

/-- The loop of `set_locals_from_arg` over the arguments, with `init_local_num`. -/
def storeArguments (locals : List VerificationType) (initLocalNum : Nat) :
    List JavaType → List VerificationType × Nat
  | [] => (locals, initLocalNum)
  | type :: rest =>
    storeArguments (storeTypes locals initLocalNum type.toVerificationTypes)
      (initLocalNum + type.toVerificationTypes.length) rest

section

variable {K : Type} (v : ClassVerifier K) (m : MethodCode)

/-- `set_locals_from_arg`, which gives the return type. -/
def setLocalsFromArg (f : FrameArrays) : VerificationType × FrameArrays :=
  let initLocalNum := if m.isStatic then 0 else 1
  let uninit := !m.isStatic && (m.isObjectInitializer ∧ v.className ≠ javaLangObject)
  let locals :=
    if m.isStatic then f.locals
    else if uninit then f.locals.set 0 uninitializedThis
    else f.locals.set 0 v.currentType
  let (locals, initLocalNum) := storeArguments locals initLocalNum m.signature.args
  (m.signature.returnType, { f with
    locals := locals
    localsSize := initLocalNum
    flagThisUninit := f.flagThisUninit || uninit })

end

/-! ## Operand stack -/

def pushStack (type : VerificationType) : FrameM Unit := fun f => do
  check (!type.isCheck) .mustBeRealType
  if f.maxStack ≤ f.stackSize then throw (.verifyError .operandStackOverflow)
  return ((), { f with
    stack := f.stack.set f.stackSize.toNat type
    stackSize := f.stackSize + 1 })

def pushStack2 (type₁ type₂ : VerificationType) : FrameM Unit := fun f => do
  check (type₁ = long ∨ type₁ = double) .mustBeLong
  check (type₂ = long2 ∨ type₂ = double2) .mustBeLong2
  if f.maxStack - 1 ≤ f.stackSize then throw (.verifyError .operandStackOverflow)
  return ((), { f with
    stack := (f.stack.set f.stackSize.toNat type₁).set (f.stackSize + 1).toNat type₂
    stackSize := f.stackSize + 2 })

variable (product : Bool)

/-- `NOT_PRODUCT` -/
def clear (stack : List VerificationType) (i : Int) : List VerificationType :=
  if product then stack else stack.set i.toNat bogus

/-- `pop_stack` without a check -/
def popAny : FrameM VerificationType := fun f =>
  if f.stackSize ≤ 0 then .error (.verifyError .operandStackUnderflow)
  else
    .ok (f.stack.getD (f.stackSize - 1).toNat bogus, { f with
      stackSize := f.stackSize - 1
      stack := clear product f.stack (f.stackSize - 1) })

variable {K : Type} [DecidableEq K] (h : ClassHierarchy K)

def isAssignable (target source : VerificationType) : Except FrameFailure Bool :=
  match target.isAssignableFrom h source with
  | none => .error (.verifyError .pendingException)
  | some b => .ok b

def popStackEx (type : VerificationType) : FrameM VerificationType := fun f =>
  if f.stackSize ≤ 0 then .error (.verifyError .operandStackUnderflow)
  else do
    let top := f.stack.getD (f.stackSize - 1).toNat bogus
    let subtype ← isAssignable h type top
    if !subtype then throw (.verifyError .badTypeOnOperandStack)
    return (top, { f with
      stackSize := f.stackSize - 1
      stack := clear product f.stack (f.stackSize - 1) })

def popStack (type : VerificationType) : FrameM VerificationType := fun f => do
  if f.stackSize ≠ 0 then
    let top := f.stack.getD (f.stackSize - 1).toNat bogus
    let subtype ← isAssignable h type top
    if subtype then
      return (top, { f with
        stackSize := f.stackSize - 1
        stack := clear product f.stack (f.stackSize - 1) })
  popStackEx product h type f

def popStack2 (type₁ type₂ : VerificationType) : FrameM Unit := fun f => do
  check (type₁ = long2 ∨ type₁ = double2) .mustBeLong
  check (type₂ = long ∨ type₂ = double) .mustBeLong2
  if 2 ≤ f.stackSize then
    let subtype₁ ← isAssignable h type₁ (f.stack.getD (f.stackSize - 1).toNat bogus)
    let subtype₂ ← isAssignable h type₂ (f.stack.getD (f.stackSize - 2).toNat bogus)
    if subtype₁ && subtype₂ then
      return ((), { f with
        stackSize := f.stackSize - 2
        stack := clear product (clear product f.stack (f.stackSize - 2)) (f.stackSize - 1) })
  let (_, f) ← popStackEx product h type₁ f
  let (_, f) ← popStackEx product h type₂ f
  return ((), f)

/-! ## Local variables -/

def getLocal (index : Nat) (type : VerificationType) : FrameM VerificationType := fun f => do
  if f.maxLocals ≤ index then throw (.verifyError .localVariableTableOverflow)
  let subtype ← isAssignable h type (f.locals.getD index bogus)
  if !subtype then throw (.verifyError .badLocalVariableType)
  return (f.locals.getD index bogus, { f with
    localsSize := if f.localsSize ≤ index then index + 1 else f.localsSize })

/-- A long or double at `index` loses its second half. -/
def cutNext (f : FrameArrays) (index : Nat) (locals : List VerificationType) :
    Except FrameFailure (List VerificationType) :=
  if CurrentFrame.isFirstHalf (locals.getD index bogus) then do
    check ((index : Int) + 1 < f.localsSize) .tableOverflow
    return locals.set (index + 1) bogus
  else return locals

/-- A second half at `index` loses its long or double. -/
def cutPrevious (index : Nat) (locals : List VerificationType) :
    Except FrameFailure (List VerificationType) :=
  if CurrentFrame.isSecondHalf (locals.getD index bogus) then do
    check (1 ≤ index) .tableUnderflow
    return locals.set (index - 1) bogus
  else return locals

/-- The locals from `_locals_size` up to `index` -/
def holesAreBogus (f : FrameArrays) (index : Nat) (locals : List VerificationType) : Bool :=
  (List.range' f.localsSize.toNat (index - f.localsSize.toNat)).all fun i =>
    locals.getD i bogus = bogus

def setLocal (index : Nat) (type : VerificationType) : FrameM Unit := fun f => do
  check (!type.isCheck) .mustBeRealType
  if f.maxLocals ≤ index then throw (.verifyError .localVariableTableOverflow)
  let locals ← cutNext f index f.locals
  let locals ← cutPrevious index locals
  let locals := locals.set index type
  if f.localsSize ≤ index then
    check (holesAreBogus f index locals) .holesMustBeBogus
    return ((), { f with locals := locals, localsSize := index + 1 })
  return ((), { f with locals := locals })

def setLocal2 (index : Nat) (type₁ type₂ : VerificationType) : FrameM Unit := fun f => do
  check (type₁ = long ∨ type₁ = double) .mustBeLong
  check (type₂ = long2 ∨ type₂ = double2) .mustBeLong2
  if f.maxLocals - 1 ≤ index then throw (.verifyError .localVariableTableOverflow)
  let locals ← cutNext f (index + 1) f.locals
  let locals ← cutPrevious index locals
  let locals := (locals.set index type₁).set (index + 1) type₂
  if f.localsSize - 1 ≤ index then
    check (holesAreBogus f index locals) .holesMustBeBogus
    return ((), { f with locals := locals, localsSize := index + 2 })
  return ((), { f with locals := locals })

/-! ## Objects -/

/-- `g` for the first `n` elements of an array -/
def mapFirst (n : Int) (g : VerificationType → VerificationType) (ts : List VerificationType) :
    List VerificationType :=
  (ts.take n.toNat).map g ++ ts.drop n.toNat

def initializeObject (oldObject newObject : VerificationType) : FrameM Unit := fun f =>
  .ok ((), { f with
    locals := mapFirst f.maxLocals (CurrentFrame.replace oldObject newObject) f.locals
    stack := mapFirst f.stackSize (CurrentFrame.replace oldObject newObject) f.stack
    flagThisUninit := if oldObject = uninitializedThis then false else f.flagThisUninit })

/-! ## Frames of the table -/

def reset (f : FrameArrays) : FrameArrays :=
  { f with
    locals := mapFirst f.maxLocals (fun _ => bogus) f.locals
    stack := mapFirst f.maxStack (fun _ => bogus) f.stack }

/-- The sizes are set through a `u2`. -/
def setLocalsSize (f : FrameArrays) (size : UInt16) : FrameArrays :=
  { f with localsSize := size.toNat }

def setStackSize (f : FrameArrays) (size : UInt16) : FrameArrays :=
  { f with stackSize := size.toNat }

/-- The first `len` elements of another array -/
def copy (src dst : List VerificationType) (len : Int) : List VerificationType :=
  src.take len.toNat ++ dst.drop len.toNat

def copyLocals (f : FrameArrays) (src : StackMapFrame) : FrameArrays :=
  let len : Int := if src.locals.length < f.localsSize then src.locals.length else f.localsSize
  { f with locals := copy src.locals f.locals len }

def copyStack (f : FrameArrays) (src : StackMapFrame) : FrameArrays :=
  let len : Int := if src.stack.length < f.stackSize then src.stack.length else f.stackSize
  { f with stack := copy src.stack f.stack len }

/-- `is_assignable_to`; the frames of the table are for the same number of locals. -/
def isAssignableTo (f : FrameArrays) (target : StackMapFrame) : Except FrameFailure Bool :=
  if f.stackSize ≠ target.stack.length then .ok false
  else
    match CurrentFrame.isAssignableTypes h f.locals target.locals,
      CurrentFrame.isAssignableTypes h (f.stack.take f.stackSize.toNat) target.stack with
    | .ok matchLocals, .ok matchStack =>
      .ok (matchLocals && matchStack &&
        (f.flagThisUninit || target.flagThisUninit) = target.flagThisUninit)
    | .error e, _ => .error (.verifyError e)
    | _, .error e => .error (.verifyError e)

/-- Use the frame in the table as the current frame. -/
def update (f : FrameArrays) (stackmapFrame : StackMapFrame) : FrameArrays :=
  let lsize := stackmapFrame.locals.length
  let ssize := stackmapFrame.stack.length
  -- unused elements are bogus already when neither size shrinks
  let f := if (lsize : Int) < f.localsSize ∨ (ssize : Int) < f.stackSize then f.reset else f
  let f := (f.setLocalsSize (.ofNat lsize)).copyLocals stackmapFrame
  let f := (f.setStackSize (.ofNat ssize)).copyStack stackmapFrame
  { f with flagThisUninit := stackmapFrame.flagThisUninit }

/-- `StackMapTable::match_stackmap` for the frame with an index in the table -/
def matchStackmap (table : List StackMapFrame) (frameIndex : Int) (doMatch doUpdate : Bool) :
    FrameM Bool := fun f =>
  if frameIndex < 0 ∨ (table.length : Int) ≤ frameIndex then
    .error (.verifyError .expectingFrameAtBranchTarget)
  else do
    let stackmapFrame := table.getD frameIndex.toNat ⟨0, false, [], []⟩
    let assignable := if doMatch then isAssignableTo h f stackmapFrame else .ok true
    let result ← assignable
    return (result, if doUpdate then f.update stackmapFrame else f)

end FrameArrays
end HotSpot
