import Mathlib.Logic.Function.Basic
import HotSpot.Oops.KlassVtable

/-! # Interface tables

The itable of `klassVtable.cpp`: behind the vtable of a class lie an offset table, with an entry for
each interface that has methods, and for each of these interfaces a method table. Four routines
agree on the layout: one reserves the space, one fills the offset table in, one the method tables,
and one says at which index a method is found.
-/

namespace HotSpot

open ClassFileParser

/-- `vmSymbols::class_initializer_name`: `<clinit>` -/
def Method.classInitializerName : Bytes := [0x3C, 0x63, 0x6C, 0x69, 0x6E, 0x69, 0x74, 0x3E]

/-- A word of an itable. An offset counts words from the start of the klass. -/
inductive ItableWord (K : Type) where
  | null
  | klass (k : K)
  | offset (n : Nat)
  | method (m : Method K)
  deriving DecidableEq, Repr

/-- `itableOffsetEntry::size`: the interface and its offset. -/
def itableOffsetEntrySize : Nat := 2

/-- `itableMethodEntry::size` -/
def itableMethodEntrySize : Nat := 1

/-- The words of a klass, in which the itable takes up `length` words from `start`. -/
structure KlassItable (K : Type) where
  start : Nat
  length : Nat
  words : Nat → ItableWord K

namespace KlassItable

variable {K : Type}

/-- `interface_klass` of an offset entry -/
def interfaceKlass (t : KlassItable K) (i : Nat) : Option K :=
  match t.words (t.start + i * itableOffsetEntrySize) with
  | .klass k => some k
  | _ => none

/-- `offset` of an offset entry -/
def offset (t : KlassItable K) (i : Nat) : Nat :=
  match t.words (t.start + i * itableOffsetEntrySize + 1) with
  | .offset n => n
  | _ => 0

/-- `_size_offset_table`: the first offset is that of the first method entry. -/
def sizeOffsetTable (t : KlassItable K) : Nat :=
  if 0 < t.length then
    match t.interfaceKlass 0 with
    | some _ => (t.offset 0 - t.start) / itableOffsetEntrySize
    | none => 0
  else 0

end KlassItable

/-- `CountInterfacesClosure` -/
structure CountInterfaces where
  nofMethods : Nat
  nofInterfaces : Nat

def CountInterfaces.doit {K : Type} (c : CountInterfaces) (_ : K) (methodCount : Nat) :
    CountInterfaces :=
  ⟨c.nofMethods + methodCount, c.nofInterfaces + 1⟩

/-- `SetupItableClosure`, with the words that it writes. -/
structure SetupItable (K : Type) where
  offsetEntry : Nat
  methodEntry : Nat
  words : Nat → ItableWord K

def SetupItable.doit {K : Type} (s : SetupItable K) (intf : K) (methodCount : Nat) :
    SetupItable K where
  offsetEntry := s.offsetEntry + itableOffsetEntrySize
  methodEntry := s.methodEntry + methodCount * itableMethodEntrySize
  words := Function.update (Function.update s.words s.offsetEntry (.klass intf))
    (s.offsetEntry + 1) (.offset s.methodEntry)

/-- `calc_itable_size` -/
def calcItableSize (numInterfaces numMethods : Nat) : Nat :=
  numInterfaces * itableOffsetEntrySize + numMethods * itableMethodEntrySize

/-- What `initialize_itable` works with: the class, which is not an interface, and the answers of
other parts of the system. -/
structure ItableLinker (K : Type) where
  klass : K
  isAbstract : Method K → Bool
  check : LoadedClasses.LoaderCheck
  checkConstraints : Bool

/-- What ends `initialize_itable`: a failed guarantee, an interface that is missing, or a
`LinkageError`. -/
inductive ItableError where
  | tooSmall
  | badOffsetEntry
  | terminatorMissing
  | linkageError
  deriving DecidableEq, Repr

namespace LoadedClasses

open Method

variable {K : Type} (h : LoadedClasses K)

/-! ## Layout -/

/-- The methods that `visit_all_interfaces` counts: it leaves out a leading `<init>`. -/
def itableMethodCount (intf : K) : Nat :=
  match h.methods intf with
  | [] => 0
  | m :: ms => if m.name = objectInitializerName then ms.length else ms.length + 1

/-- `visit_all_interfaces` -/
def visitAllInterfaces {S : Type} (doit : S → K → Nat → S) : List K → S → S
  | [], s => s
  | intf :: intfs, s =>
    let methodCount := h.itableMethodCount intf
    if 0 < methodCount then visitAllInterfaces doit intfs (doit s intf methodCount)
    else visitAllInterfaces doit intfs s

/-- `CountInterfacesClosure` after all interfaces. -/
def countInterfaces (intfs : List K) : CountInterfaces :=
  h.visitAllInterfaces CountInterfaces.doit intfs ⟨0, 0⟩

/-- `compute_itable_size`. The additional entry ends the offset table. -/
def computeItableSize (intfs : List K) : Nat :=
  calcItableSize ((h.countInterfaces intfs).nofInterfaces + 1) (h.countInterfaces intfs).nofMethods

/-- The itable of a class that has just been allocated: its words are cleared. -/
def allocateItable (intfs : List K) (start : Nat) : KlassItable K :=
  ⟨start, h.computeItableSize intfs, fun _ => .null⟩

/-- `setup_itable_offset_table` -/
def setupItableOffsetTable (intfs : List K) (t : KlassItable K) : KlassItable K :=
  if t.length = 0 then t
  else
    let nofInterfaces := (h.countInterfaces intfs).nofInterfaces + 1
    let ime := t.start + nofInterfaces * itableOffsetEntrySize
    { t with words := (h.visitAllInterfaces SetupItable.doit intfs ⟨t.start, ime, t.words⟩).words }

/-- The itable of a class with its offset table. -/
def itable (intfs : List K) (start : Nat) : KlassItable K :=
  h.setupItableOffsetTable intfs (h.allocateItable intfs start)

/-! ## Methods -/

/-- The loop behind `lookup_instance_method_in_klasses`: a static method is passed over. -/
def lookupInstanceLoop (name signature : Bytes) : Nat → K → Option (Method K)
  | 0, _ => none
  | fuel + 1, k =>
    match h.lookupMethod k name signature with
    | none => none
    | some target =>
      if target.isStatic then
        match h.super target.holder with
        | none => none
        | some s => lookupInstanceLoop name signature fuel s
      else some target

/-- `lookup_instance_method_in_klasses` -/
def lookupInstanceMethod (k : K) (name signature : Bytes) : Option (Method K) :=
  h.lookupInstanceLoop name signature (h.depth k + 1) k

/-- What `initialize_itable_for_interface` enters for a name and signature. -/
def itableTarget (c : ItableLinker K) (name signature : Bytes) : Option (Method K) :=
  match h.lookupInstanceMethod c.klass name signature with
  | none => none
  | some target =>
    if target.access ≠ .public_ ∨ c.isAbstract target then none else some target

/-- The first method is a class initializer. -/
def startsWithClassInitializer (methods : List (Method K)) : Bool :=
  match methods with
  | [] => false
  | m :: _ => m.name = classInitializerName

/-- The loop of `initialize_itable_for_interface` from the method entry `ime`. -/
def initializeEntries (c : ItableLinker K) (intf : K) :
    List (Method K) → Nat → (Nat → ItableWord K) → Except ItableError (Nat → ItableWord K)
  | [], _, words => .ok words
  | m :: ms, ime, words =>
    match h.itableTarget c m.name m.signature with
    | none => initializeEntries c intf ms (ime + itableMethodEntrySize) words
    | some target =>
      if c.checkConstraints ∧ h.loader target.holder ≠ h.loader intf ∧
          ¬ c.check m.signature (h.loader target.holder) (h.loader intf) then
        .error .linkageError
      else
        initializeEntries c intf ms (ime + itableMethodEntrySize)
          (Function.update words ime (.method target))

/-- `initialize_itable_for_interface` -/
def initializeItableForInterface (c : ItableLinker K) (methodTableOffset : Nat) (intf : K)
    (words : Nat → ItableWord K) : Except ItableError (Nat → ItableWord K) :=
  let methods := h.methods intf
  let i := if startsWithClassInitializer methods then 1 else 0
  h.initializeEntries c intf (methods.drop i) methodTableOffset words

/-- The loop of `initialize_itable` over `n` entries from the entry `i`. -/
def initializeInterfaces (c : ItableLinker K) :
    Nat → Nat → KlassItable K → Except ItableError (KlassItable K)
  | 0, _, t => .ok t
  | n + 1, i, t =>
    match t.interfaceKlass i with
    | none => .error .badOffsetEntry
    | some intf => do
        let words ← h.initializeItableForInterface c (t.offset i) intf t.words
        initializeInterfaces c n (i + 1) { t with words := words }

/-- `initialize_itable` -/
def initializeItable (c : ItableLinker K) (t : KlassItable K) :
    Except ItableError (KlassItable K) :=
  if t.length = itableOffsetEntrySize then .ok t
  else if t.sizeOffsetTable < 1 then .error .tooSmall
  else do
    let last := t.sizeOffsetTable - 1
    let t' ← h.initializeInterfaces c last 0 t
    if t'.interfaceKlass last = none ∧ t'.offset last = 0 then .ok t'
    else .error .terminatorMissing

/-! ## Indices -/

section Indices

variable [DecidableEq K]

/-- The search of `compute_itable_index`. Without a result it has run over the end. -/
def itableIndexLoop (m : Method K) : List (Method K) → Nat → Option Nat
  | [], _ => none
  | m' :: ms, index => if m' = m then some index else itableIndexLoop m ms (index + 1)

/-- `compute_itable_index` -/
def computeItableIndex (m : Method K) : Option Int :=
  let methods := h.methods m.holder
  match itableIndexLoop m methods 0 with
  | none => none
  | some index => some (if startsWithClassInitializer methods then (index : Int) - 1 else index)

end Indices

/-- `method_for_itable_index` -/
def methodForItableIndex (intf : K) (itableIndex : Int) : Option (Method K) :=
  let methods := h.methods intf
  let index := if startsWithClassInitializer methods then itableIndex + 1 else itableIndex
  if itableIndex < 0 ∨ (methods.length : Int) ≤ index then none else methods[index.toNat]?

end LoadedClasses

end HotSpot
