import HotSpot.Classfile.Signature

/-! # Verification types

`VerificationType` of `verificationType.hpp`: the types that the split verifier gives to the
slots of a frame, and its test whether one is assignable to another.
-/

namespace HotSpot

open ClassFileParser

/-- The words that `_u` stands for. A second half follows a long or double; a check is only
used for queries. -/
inductive VerificationType where
  | bogus | boolean | byte | short | char | integer | float | long | double | long2 | double2
  | null
  | reference (name : Bytes)
  | uninitialized (bci : Nat)
  | referenceCheck | category1Check | category2Check | category2SecondCheck
  deriving DecidableEq, Repr

/-- java/lang/Object -/
def javaLangObject : Bytes :=
  [0x6A, 0x61, 0x76, 0x61, 0x2F, 0x6C, 0x61, 0x6E, 0x67, 0x2F, 0x4F, 0x62, 0x6A, 0x65, 0x63, 0x74]

/-- The loaded classes as seen from the class that is being verified. A class that cannot be
loaded leaves an exception. -/
structure ClassHierarchy (K : Type) where
  resolve : Bytes → Option K
  isInterface : K → Bool
  super : K → Option K
  /-- The number of superclasses bounds the chain of them. -/
  depth : K → Nat
  depth_super : ∀ {k s}, super k = some s → depth s < depth k
  /-- The class at the root, which is also the superclass of the interfaces. -/
  object : K
  resolve_eq_object : ∀ {name}, resolve name = some object ↔ name = javaLangObject
  super_object : super object = none
  super_interface : ∀ {k s}, isInterface k = true → super k = some s → s = object

namespace ClassHierarchy

variable {K : Type} [DecidableEq K] (h : ClassHierarchy K)

/-- The loop of `Klass::is_subclass_of` up the chain of superclasses. -/
def isSubclassOfLoop (k : K) : Nat → K → Bool
  | 0, _ => false
  | fuel + 1, t => t = k || match h.super t with
      | none => false
      | some s => isSubclassOfLoop k fuel s

def isSubclassOf (t k : K) : Bool := h.isSubclassOfLoop k (h.depth t + 1) t

end ClassHierarchy

namespace VerificationType

/-- `BciForThis` -/
def bciForThis : Nat := 0xFFFF

def uninitializedThis : VerificationType := .uninitialized bciForThis

def isBogus (t : VerificationType) : Bool := t = .bogus

def isReference : VerificationType → Bool
  | null | reference _ => true
  | _ => false

/-- The query types have this bit too. -/
def isUninitialized : VerificationType → Bool
  | uninitialized _ | referenceCheck | category1Check | category2Check
  | category2SecondCheck => true
  | _ => false

def isUninitializedThis (t : VerificationType) : Bool := t = uninitializedThis

/-- One word: not a half of a long or double. -/
def isCategory1 : VerificationType → Bool
  | long | double | long2 | double2 => false
  | _ => true

def isCategory2 : VerificationType → Bool
  | long | double | category2Check => true
  | _ => false

def isCategory2Second : VerificationType → Bool
  | long2 | double2 | category2SecondCheck => true
  | _ => false

/-- `to_category2_2nd` -/
def toCategory2Second (t : VerificationType) : VerificationType :=
  if t = .long then long2 else double2

def isObject : VerificationType → Bool
  | reference name => 1 ≤ name.length ∧ name.getD 0 0 ≠ Letter.array
  | _ => false

def isArray : VerificationType → Bool
  | reference name => 2 ≤ name.length ∧ name.getD 0 0 = Letter.array
  | _ => false

/-- `get_component`; the names of arrays have been checked. -/
def getComponent : VerificationType → Option VerificationType
  | reference name =>
    let letter := name.getD 1 0
    if letter = Letter.boolean then some boolean
    else if letter = Letter.byte then some byte
    else if letter = Letter.char then some char
    else if letter = Letter.short then some short
    else if letter = Letter.int then some integer
    else if letter = Letter.long then some long
    else if letter = Letter.float then some float
    else if letter = Letter.double then some double
    else if letter = Letter.array then some (reference (name.drop 1))
    else if letter = Letter.cls then some (reference ((name.drop 2).dropLast))
    else none
  | _ => none

/-- `is_assignable_from`, with the test for two references that are not equal. -/
def isAssignableWith (isReferenceAssignable : VerificationType → VerificationType → Option Bool)
    (target source : VerificationType) : Option Bool :=
  if target = source ∨ target.isBogus then some true
  else
    match target with
    | category1Check => some source.isCategory1
    | category2Check => some source.isCategory2
    | category2SecondCheck => some source.isCategory2Second
    | referenceCheck => some (source.isReference || source.isUninitialized)
    | boolean | byte | char | short => some (source = integer)
    | _ =>
      if target.isReference && source.isReference then isReferenceAssignable target source
      else some false

variable {K : Type} [DecidableEq K] (h : ClassHierarchy K)

/-- `is_reference_assignable_from`. The name of a component is shorter than that of its array,
so that there are fewer rounds than bytes. -/
def isReferenceAssignableFrom : Nat → VerificationType → VerificationType → Option Bool
  | 0, _, _ => none
  | fuel + 1, target, source =>
    match source, target with
    | null, _ => some true -- null is assignable to any reference
    | _, null => some false
    | reference sourceName, reference toName =>
      if toName = sourceName then some true
      else if target.isObject then
        if toName = javaLangObject then some true
        else do
          let thisClass ← h.resolve toName
          if h.isInterface thisClass then return true -- as java.lang.Object
          else if source.isObject then
            let sourceClass ← h.resolve sourceName
            return h.isSubclassOf sourceClass thisClass
          else return false
      else if target.isArray && source.isArray then do
        let compThis ← target.getComponent
        let compSource ← source.getComponent
        isAssignableWith (isReferenceAssignableFrom fuel) compThis compSource
      else some false
    | _, _ => some false

def nameLength : VerificationType → Nat
  | reference name => name.length
  | _ => 0

def isAssignableFrom (target source : VerificationType) : Option Bool :=
  isAssignableWith (isReferenceAssignableFrom h (target.nameLength + 1)) target source

end VerificationType

end HotSpot
