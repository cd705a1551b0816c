import HotSpot.Classfile.ArrayDimensions
import Mathlib

/-! # The superclass walk for a constructor

`verify_invoke_init` looks for the class of a constructor among the superclasses of the class that
is verified. It goes from class to class with addresses: a `klassOop` has its `Klass` behind a
header, and the superclass of `java.lang.Object` is `NULL`.
-/

namespace HotSpot

open VerificationType CurrentFrame ClassFileParser

/-- The fields of a `Klass` that the walk reads. `super` is the address of a `klassOop`. -/
structure KlassFields where
  name : Bytes
  super : Nat
  deriving DecidableEq, Repr

/-- The loaded classes in memory. An address where there is no `Klass` cannot be read as one. -/
structure KlassMemory where
  /-- `klass_part_offset_in_bytes`, the size of the header of a `klassOop` -/
  klassPartOffset : Nat
  klassPartOffset_pos : 0 < klassPartOffset
  read : Nat → Option KlassFields
  /-- No object is at `NULL`. -/
  read_null : read klassPartOffset = none

namespace KlassMemory

variable (mem : KlassMemory)

def klassPart (oop : Nat) : Nat := oop + mem.klassPartOffset

/-- Where a loop over classes ends: with a `Klass*`, which may be `NULL`, or with an access to an
address where no class is. -/
inductive WalkEnd where
  | ended (klass : Nat)
  | fault (address : Nat)
  deriving DecidableEq, Repr

/-- The loop of `verify_invoke_init`, from the `Klass*` that it is at. -/
def superWalk (refName : Bytes) : Nat → Nat → Option WalkEnd
  | 0, _ => none
  | fuel + 1, klass =>
    if klass = 0 then some (.ended klass)
    else
      match mem.read klass with
      | none => some (.fault klass)
      | some fields =>
        if refName ≠ fields.name then superWalk refName fuel (mem.klassPart fields.super)
        else some (.ended klass)

/-- The names of a class and its superclasses. -/
inductive SuperChain : Nat → List Bytes → Prop
  | object {oop : Nat} (hread : mem.read (mem.klassPart oop) = some ⟨javaLangObject, 0⟩) :
      SuperChain oop [javaLangObject]
  | subclass {oop super : Nat} {name : Bytes} {names : List Bytes}
      (hread : mem.read (mem.klassPart oop) = some ⟨name, super⟩)
      (hsuper : SuperChain super names) : SuperChain oop (name :: names)

variable {mem}

theorem klassPart_ne_zero (oop : Nat) : mem.klassPart oop ≠ 0 := by
  have hpos := mem.klassPartOffset_pos
  unfold klassPart
  omega

theorem read_klassPart_null : mem.read (mem.klassPart 0) = none := by
  rw [klassPart, Nat.zero_add]
  exact mem.read_null

/-- One round at a class. -/
theorem superWalk_succ {oop super fuel : Nat} {name refName : Bytes}
    (hread : mem.read (mem.klassPart oop) = some ⟨name, super⟩) :
    mem.superWalk refName (fuel + 1) (mem.klassPart oop) =
      if refName ≠ name then mem.superWalk refName fuel (mem.klassPart super)
      else some (.ended (mem.klassPart oop)) := by
  rw [superWalk, if_neg (klassPart_ne_zero oop), hread]

/-- The test for `NULL` does not see the superclass of the root. -/
theorem superWalk_null (refName : Bytes) (fuel : Nat) :
    mem.superWalk refName (fuel + 1) (mem.klassPart 0) = some (.fault (mem.klassPart 0)) := by
  rw [superWalk, if_neg (klassPart_ne_zero 0), read_klassPart_null]

theorem superWalk_of_mem {oop fuel : Nat} {names : List Bytes} {refName : Bytes}
    (hchain : mem.SuperChain oop names) (hfuel : names.length < fuel) (hmem : refName ∈ names) :
    ∃ klass, klass ≠ 0 ∧ mem.superWalk refName fuel (mem.klassPart oop) = some (.ended klass) := by
  induction hchain generalizing fuel with
  | @object oop hread =>
    obtain ⟨fuel, rfl⟩ := Nat.exists_eq_add_of_lt hfuel
    rw [superWalk_succ hread, if_neg (not_not.2 (List.mem_singleton.1 hmem))]
    exact ⟨_, klassPart_ne_zero oop, rfl⟩
  | @subclass oop super name names hread hsuper ih =>
    obtain ⟨fuel, rfl⟩ := Nat.exists_eq_add_of_lt hfuel
    rw [superWalk_succ hread]
    split
    next hne =>
        refine ih ?_ ((List.mem_cons.1 hmem).resolve_left hne)
        rw [List.length_cons]
        omega
    next => exact ⟨_, klassPart_ne_zero oop, rfl⟩

theorem superWalk_of_not_mem {oop fuel : Nat} {names : List Bytes} {refName : Bytes}
    (hchain : mem.SuperChain oop names) (hfuel : names.length < fuel) (hmem : refName ∉ names) :
    mem.superWalk refName fuel (mem.klassPart oop) = some (.fault (mem.klassPart 0)) := by
  induction hchain generalizing fuel with
  | @object oop hread =>
    obtain ⟨fuel, rfl⟩ := Nat.exists_eq_add_of_lt hfuel
    rw [superWalk_succ hread, if_pos fun heq => hmem (List.mem_singleton.2 heq)]
    rw [List.length_singleton, Nat.add_comm 1 fuel]
    exact superWalk_null refName fuel
  | @subclass oop super name names hread hsuper ih =>
    obtain ⟨fuel, rfl⟩ := Nat.exists_eq_add_of_lt hfuel
    rw [superWalk_succ hread, if_pos fun heq => hmem (List.mem_cons.2 (.inl heq))]
    refine ih ?_ fun hin => hmem (List.mem_cons_of_mem _ hin)
    rw [List.length_cons]
    omega

end KlassMemory

/-! ## verify_invoke_init -/

/-- How the verification of the call ends. -/
inductive InvokeInit where
  | verified (thisUninit : Bool) (f : CurrentFrame)
  | verifyError (e : VerifyError)
  | fault (address : Nat)

def InvokeInit.ofExcept : Except VerifyError (Bool × CurrentFrame) → InvokeInit
  | .error e => .verifyError e
  | .ok (thisUninit, f) => .verified thisUninit f

namespace ClassVerifier

variable {K : Type} [DecidableEq K] (v : ClassVerifier K) (mem : KlassMemory)

/-- The object has been initialized as one of the current class. -/
def initializedThis (f : CurrentFrame) : InvokeInit :=
  .ofExcept (((initializeObject uninitializedThis v.currentType) >>= fun _ => pure true).run f)

/-- `verify_invoke_init` for a class in memory. Nothing else of it depends on addresses. -/
def verifyInvokeInitAt (fuel currentClass : Nat) (code className : Bytes)
    (signature : MethodSignature) (f : CurrentFrame) : Option InvokeInit :=
  match (popStack v.hierarchy .referenceCheck).run f with
  | .error e => some (.verifyError e)
  | .ok (type, popped) =>
    if type = uninitializedThis then
      match mem.superWalk className fuel (mem.klassPart currentClass) with
      | none => none
      | some (.fault address) => some (.fault address)
      | some (.ended klass) =>
        if klass = 0 then some (.verifyError .badInitCall) else some (v.initializedThis popped)
    else some (.ofExcept ((v.verifyInvokeInit code className signature).run f))

/-- On an object under construction the walk ends, with a match exactly for the name of the class
or one of its superclasses and with an error report for any other name. -/
def SuperWalkExact (currentClass : Nat) (names : List Bytes) (className : Bytes) : Prop :=
  ∀ (fuel : Nat) (code : Bytes) (signature : MethodSignature) (f popped : CurrentFrame),
    names.length < fuel →
    (popStack v.hierarchy .referenceCheck).run f = .ok (uninitializedThis, popped) →
    (className ∈ names → v.verifyInvokeInitAt mem fuel currentClass code className signature f =
      some (v.initializedThis popped)) ∧
    (className ∉ names → v.verifyInvokeInitAt mem fuel currentClass code className signature f =
      some (.verifyError .badInitCall))

variable {v mem}

theorem verifyInvokeInitAt_of_mem {fuel currentClass : Nat} {names : List Bytes}
    {code className : Bytes} {signature : MethodSignature} {f popped : CurrentFrame}
    (hchain : mem.SuperChain currentClass names) (hfuel : names.length < fuel)
    (hpop : (popStack v.hierarchy .referenceCheck).run f = .ok (uninitializedThis, popped))
    (hmem : className ∈ names) :
    v.verifyInvokeInitAt mem fuel currentClass code className signature f =
      some (v.initializedThis popped) := by
  obtain ⟨klass, hne, hwalk⟩ := KlassMemory.superWalk_of_mem hchain hfuel hmem
  simp only [verifyInvokeInitAt, hpop, hwalk, if_true, if_neg hne]

theorem verifyInvokeInitAt_of_not_mem {fuel currentClass : Nat} {names : List Bytes}
    {code className : Bytes} {signature : MethodSignature} {f popped : CurrentFrame}
    (hchain : mem.SuperChain currentClass names) (hfuel : names.length < fuel)
    (hpop : (popStack v.hierarchy .referenceCheck).run f = .ok (uninitializedThis, popped))
    (hmem : className ∉ names) :
    v.verifyInvokeInitAt mem fuel currentClass code className signature f =
      some (.fault (mem.klassPart 0)) := by
  have hwalk := KlassMemory.superWalk_of_not_mem hchain hfuel hmem
  simp only [verifyInvokeInitAt, hpop, hwalk, if_true]

/-- An uninitialized object alone on the stack. -/
def uninitializedOnStack : CurrentFrame := ⟨1, 0, [], [uninitializedThis], true⟩

theorem popStack_uninitializedOnStack (h : ClassHierarchy K) :
    (popStack h .referenceCheck).run uninitializedOnStack =
      .ok (uninitializedThis, { uninitializedOnStack with stack := [] }) := by
  have hassignable : referenceCheck.isAssignableFrom h uninitializedThis = some true := by
    simp [isAssignableFrom, isAssignableWith, uninitializedThis, isUninitialized]
  simp only [uninitializedOnStack, StateT.run, popStack, hassignable]

/-- The walk is right for exactly the names that it finds. -/
theorem superWalkExact_iff {currentClass : Nat} {names : List Bytes}
    (hchain : mem.SuperChain currentClass names) (className : Bytes) :
    v.SuperWalkExact mem currentClass names className ↔ className ∈ names := by
  constructor
  · intro hexact
    by_contra hmem
    have hfuel := Nat.lt_succ_self names.length
    have hpop := popStack_uninitializedOnStack v.hierarchy
    have hresult := (hexact _ [] ⟨[], none⟩ _ _ hfuel hpop).2 hmem
    rw [verifyInvokeInitAt_of_not_mem hchain hfuel hpop hmem] at hresult
    cases hresult
  · intro hmem fuel code signature f popped hfuel hpop
    exact ⟨fun _ => verifyInvokeInitAt_of_mem hchain hfuel hpop hmem, fun hnot => absurd hmem hnot⟩

end ClassVerifier

/-! ## A direct subclass of `java.lang.Object` -/

/-- The class `A` at 256 and its superclass at 512. -/
def KlassMemory.twoClasses : KlassMemory where
  klassPartOffset := 16
  klassPartOffset_pos := by decide
  read address :=
    if address = 272 then some ⟨[0x41], 512⟩
    else if address = 528 then some ⟨javaLangObject, 0⟩ else none
  read_null := rfl

theorem KlassMemory.superChain_twoClasses :
    KlassMemory.twoClasses.SuperChain 256 [[0x41], javaLangObject] :=
  .subclass rfl (.object rfl)

theorem superWalkExact_iff_twoClasses :
    ClassVerifier.intArrayUser.SuperWalkExact .twoClasses 256 [[0x41], javaLangObject] [0x41] :=
  (ClassVerifier.superWalkExact_iff KlassMemory.superChain_twoClasses _).2 List.mem_cons_self

/-- The constructor of `B` reads the `Klass` of `NULL`, at 16. -/
theorem superWalk_reads_null :
    ¬ (∀ (v : ClassVerifier Unit) (mem : KlassMemory) (currentClass : Nat) (names : List Bytes)
        (className : Bytes), mem.SuperChain currentClass names →
        v.SuperWalkExact mem currentClass names className) ∧
      KlassMemory.twoClasses.superWalk [0x42] 3 (KlassMemory.twoClasses.klassPart 256) =
        some (.fault 16) := by
  refine ⟨fun hall => ?_, by decide⟩
  have hexact := hall .intArrayUser .twoClasses 256 _ [0x42] KlassMemory.superChain_twoClasses
  have hresult := (hexact 3 [] ⟨[], none⟩ _ _ (by decide)
    (ClassVerifier.popStack_uninitializedOnStack _)).2 (by decide)
  rw [ClassVerifier.verifyInvokeInitAt_of_not_mem KlassMemory.superChain_twoClasses (by decide)
    (ClassVerifier.popStack_uninitializedOnStack _) (by decide)] at hresult
  cases hresult

end HotSpot
