import HotSpot.Classfile.StackMapTable
import HotSpot.Lib.Simulation

/-! # The current frame of the verifier

`StackMapFrame` of `stackMapFrame.cpp` as the frame that `verify_method` works on, and its
comparison with the frames of the table in `stackMapTable.cpp`.
-/

namespace HotSpot

inductive VerifyError where
  /-- A pending exception: a class could not be loaded. -/
  | pendingException
  /-- Operand stack overflow -/
  | operandStackOverflow
  /-- Operand stack underflow -/
  | operandStackUnderflow
  /-- Bad type on operand stack -/
  | badTypeOnOperandStack
  /-- Local variable table overflow -/
  | localVariableTableOverflow
  /-- Bad local variable type -/
  | badLocalVariableType
  /-- Expecting a stackmap frame at branch target %d -/
  | expectingFrameAtBranchTarget
  /-- Illegal constant pool index %d in class %s, Illegal type at constant pool entry %d in class
  %s -/
  | illegalConstant
  /-- Bad access to protected <init> method -/
  | badProtectedAccess
  /-- Bad <init> method call -/
  | badInitCall
  /-- Expecting new instruction -/
  | expectingNew
  /-- Call to wrong <init> method -/
  | callToWrongInit
  /-- Bad operand type when invoking <init> -/
  | badInitOperand
  /-- Illegal constant pool index in multianewarray instruction -/
  | illegalMultianewarrayIndex
  /-- Illegal dimension in multianewarray instruction -/
  | illegalDimension
  deriving DecidableEq, Repr

/-- The array of locals has `max_locals` elements, of which those from `localsSize` on are
unused. The stack has its top in front. -/
structure CurrentFrame where
  maxStack : Nat
  localsSize : Nat
  locals : List VerificationType
  stack : List VerificationType
  flagThisUninit : Bool
  deriving DecidableEq, Repr

abbrev VerifierM := StateT CurrentFrame (Except VerifyError)

namespace CurrentFrame

open VerificationType

/-! ## Operand stack -/

def pushStack (t : VerificationType) : VerifierM Unit := fun f =>
  if f.maxStack ≤ f.stack.length then .error .operandStackOverflow
  else .ok ((), { f with stack := t :: f.stack })

variable {K : Type} [DecidableEq K] (h : ClassHierarchy K)

def popStack (type : VerificationType) : VerifierM VerificationType := fun f =>
  match f.stack with
  | [] => .error .operandStackUnderflow
  | top :: rest =>
    match type.isAssignableFrom h top with
    | none => .error .pendingException
    | some false => .error .badTypeOnOperandStack
    | some true => .ok (top, { f with stack := rest })

/-- The quick test of both halves fails only if one of the pops does. -/
def popStack2 (t₁ t₂ : VerificationType) : VerifierM Unit := do
  let _ ← popStack h t₁
  let _ ← popStack h t₂

/-! ## Local variables -/

def isFirstHalf (t : VerificationType) : Bool := t = double ∨ t = long
def isSecondHalf (t : VerificationType) : Bool := t = double2 ∨ t = long2

/-- The other half of a long or double at `index` becomes unusable when it is overwritten from
the front. -/
def cutAfter (index : Nat) (locals : List VerificationType) : List VerificationType :=
  if isFirstHalf (locals.getD index bogus) then locals.set (index + 1) bogus else locals

def cutBefore (index : Nat) (locals : List VerificationType) : List VerificationType :=
  if isSecondHalf (locals.getD index bogus) then locals.set (index - 1) bogus else locals

/-! ## Objects -/

def replace (oldObject newObject t : VerificationType) : VerificationType :=
  if t = oldObject then newObject else t

def initializeObject (oldObject newObject : VerificationType) : VerifierM Unit := fun f =>
  .ok ((), { f with
    locals := f.locals.map (replace oldObject newObject)
    stack := f.stack.map (replace oldObject newObject)
    flagThisUninit := if oldObject = uninitializedThis then false else f.flagThisUninit })

/-! ## Frames of the table -/

/-- `is_assignable_to` for the elements of two arrays -/
def isAssignableTypes : List VerificationType → List VerificationType → Except VerifyError Bool
  | _, [] => .ok true
  | [], _ :: _ => .ok false
  | source :: sources, target :: targets =>
    match target.isAssignableFrom h source with
    | none => .error .pendingException
    | some false => .ok false
    | some true => isAssignableTypes sources targets

@[simp] theorem length_cutAfter (types : List VerificationType) (j : Nat) :
    (cutAfter j types).length = types.length := by
  unfold cutAfter
  split <;> simp

@[simp] theorem length_cutBefore (types : List VerificationType) (j : Nat) :
    (cutBefore j types).length = types.length := by
  unfold cutBefore
  split <;> simp

theorem popStack_eq_ok {K : Type} [DecidableEq K] (h : ClassHierarchy K) {f f' : CurrentFrame}
    {t top : VerificationType} (hrun : (popStack h t).run f = .ok (top, f')) :
    ∃ rest, f.stack = top :: rest ∧ t.isAssignableFrom h top = some true ∧
      f' = { f with stack := rest } := by
  simp only [StateT.run, popStack] at hrun
  split at hrun
  · cases hrun
  next hstack =>
    split at hrun
    · cases hrun
    · cases hrun
    next hassign =>
      cases hrun
      exact ⟨_, hstack, hassign, rfl⟩

end CurrentFrame

end HotSpot
