import HotSpot.Runtime.Signature
import Mathlib

/-! # Fingerprints of methods

`Fingerprinter` packs the types of the parameters of a method, its result type and whether
it is static into a 64-bit number, and an iteration over that number takes the place of
one over the signature.
-/

namespace HotSpot

open ClassFileParser (Bytes Letter.func Letter.endFunc)

/-- The values of `BasicType`. -/
def BasicType.number : BasicType → Nat
  | .boolean => 4
  | .char => 5
  | .float => 6
  | .double => 7
  | .byte => 8
  | .short => 9
  | .int => 10
  | .long => 11
  | .object => 12
  | .array => 13
  | .void => 14

/-! ## Features -/

namespace SignatureIterator

def staticFeatureSize : Nat := 1
def resultFeatureSize : Nat := 4
def parameterFeatureSize : Nat := 4
def parameterFeatureMask : Nat := 0xF

def boolParm : Nat := 1
def byteParm : Nat := 2
def charParm : Nat := 3
def shortParm : Nat := 4
def intParm : Nat := 5
def longParm : Nat := 6
def floatParm : Nat := 7
def doubleParm : Nat := 8
def objParm : Nat := 9
/-- The marker for the end of the parameters. -/
def doneParm : Nat := 10

def bitsPerLong : Nat := 64

/-- The word without the sign bit, the termination field, and the result and static fields. -/
def maxSizeOfParameters : Nat :=
  (bitsPerLong - 1 - resultFeatureSize - parameterFeatureSize - staticFeatureSize) /
    parameterFeatureSize

/-! ## Result type -/

variable (sig : Bytes)

/-- `while (sig->byte_at(_index) != ')') _index++;` -/
def skipToEndFunc : Nat → Nat → Except SignatureFault Nat
  | 0, _ => .error .unfinished
  | fuel + 1, index => do
      let c ← byteAt sig index
      if c ≠ Letter.endFunc then skipToEndFunc fuel (index + 1) else return index

def iterateReturntype : Except SignatureFault SignatureIterator := do
  -- Ignore parameters.
  let it ← expect sig Letter.func start
  let index ← skipToEndFunc sig sig.length it.index
  let it ← expect sig Letter.endFunc { it with index := index }
  let (_, it) ← parseType sig { it with parameterIndex := -1 }
  return { it with parameterIndex := 0 }

end SignatureIterator

/-- `type`, which is `T_ILLEGAL` before it is set. -/
def ResultTypeFinder.type (sig : Bytes) : Except SignatureFault BasicType := do
  let it ← SignatureIterator.iterateReturntype sig
  match it.returnType with
  | some type => return type
  | none => throw .shouldNotReachHere

/-! ## Methods -/

/-- `uint64_t`, after a shift to the left. -/
def shiftLeft64 (x count : Nat) : Nat := (x <<< count) % 2 ^ SignatureIterator.bitsPerLong

structure Fingerprinter where
  fingerprint : Nat
  shiftCount : Nat
  deriving DecidableEq, Repr

namespace Fingerprinter

open SignatureIterator

/-- What is read of a method. -/
structure Method where
  signature : Bytes
  isStatic : Bool
  sizeOfParameters : Nat
  /-- `_fingerprint` of the `constMethod` -/
  constFingerprint : Nat
  deriving DecidableEq, Repr

/-- `init_fingerprint` -/
def initval : Nat := 0x8000000000000000

/-- `UCONST64(-1)`, for too many arguments. -/
def tooMany : Nat := 2 ^ bitsPerLong - 1

namespace Method

/-- `compute_size_of_parameters`, into a `u2`. -/
def computeSizeOfParameters (sig : Bytes) (isStatic : Bool) : Except SignatureFault Nat := do
  let size ← ArgumentSizeComputer.size sig
  return (size + if isStatic then 0 else 1) % 2 ^ 16

/-- A method that has no fingerprint yet. -/
def create (sig : Bytes) (isStatic : Bool) : Except SignatureFault Method := do
  let size ← computeSizeOfParameters sig isStatic
  return ⟨sig, isStatic, size, initval⟩

/-- `fingerprint` of the `constMethod`. -/
def fingerprint (mh : Method) : Nat :=
  -- Reads are not atomic: one half may be that of the initial value.
  if mh.constFingerprint % 2 ^ 32 = 0 ∨ mh.constFingerprint >>> 32 = 0x80000000 then 0
  else mh.constFingerprint

end Method

/-- `_fingerprint |= (uint64_t) parm << _shift_count` -/
def addParm (parm : Nat) (f : Fingerprinter) : Fingerprinter :=
  { fingerprint := f.fingerprint ||| shiftLeft64 parm f.shiftCount
    shiftCount := f.shiftCount + parameterFeatureSize }

/-- What the `do_*` methods add. -/
def parm : BasicType → Option Nat
  | .boolean => some boolParm
  | .char => some charParm
  | .byte => some byteParm
  | .short => some shortParm
  | .int => some intParm
  | .long => some longParm
  | .float => some floatParm
  | .double => some doubleParm
  | .object | .array => some objParm
  | .void => none

def doType (f : Fingerprinter) (type : BasicType) : Except SignatureFault Fingerprinter :=
  match parm type with
  | some parm => .ok (f.addParm parm)
  | none => .error .shouldNotReachHere

/-- `fingerprint`, with the method that keeps it. -/
def fingerprintOf (mh : Method) : Except SignatureFault (Nat × Method) :=
  -- See if this method has been fingerprinted already.
  if mh.fingerprint ≠ 0 then .ok (mh.fingerprint, mh)
  else if maxSizeOfParameters < mh.sizeOfParameters then
    .ok (tooMany, { mh with constFingerprint := tooMany })
  else do
    let type ← ResultTypeFinder.type mh.signature
    let fingerprint := shiftLeft64 type.number staticFeatureSize
    let fingerprint := if mh.isStatic then fingerprint ||| 1 else fingerprint
    let it ← iterateParameters mh.signature
    let f ← (it.calls.map (·.type)).foldlM doType
      ⟨fingerprint, resultFeatureSize + staticFeatureSize⟩
    let fingerprint := (f.addParm doneParm).fingerprint
    return (fingerprint, { mh with constFingerprint := fingerprint })

end Fingerprinter

/-! ## Iteration -/

/-- What a `do_*` method can tell about its call. -/
structure DoCall where
  type : BasicType
  arguments : Option (Nat × Nat)
  parameterIndex : Int
  deriving DecidableEq, Repr

def DoType.call (call : DoType) : DoCall := ⟨call.type, call.arguments, call.parameterIndex⟩

namespace SignatureIterator

/-- The cases for the parameters. -/
def typeOfParm (parm : Nat) : Option BasicType :=
  if parm = boolParm then some .boolean
  else if parm = byteParm then some .byte
  else if parm = charParm then some .char
  else if parm = shortParm then some .short
  else if parm = intParm then some .int
  else if parm = objParm then some .object
  else if parm = longParm then some .long
  else if parm = floatParm then some .float
  else if parm = doubleParm then some .double
  else none

/-- The loop over the features, from a parameter index on. -/
def iterateFeatures : Nat → Nat → Int → Except SignatureFault (List DoCall)
  | 0, _, _ => .error .unfinished
  | fuel + 1, fingerprint, parameterIndex =>
    let parm := fingerprint &&& parameterFeatureMask
    if parm = doneParm then .ok []
    else match typeOfParm parm with
      | some type => do
          let arguments := if type = .object then some (0, 0) else none
          let calls ← iterateFeatures fuel (fingerprint >>> parameterFeatureSize)
            (parameterIndex + type.size)
          return ⟨type, arguments, parameterIndex⟩ :: calls
      | none => .error .shouldNotReachHere

/-- `iterate_parameters` of a fingerprint -/
def iterateFingerprint (sig : Bytes) (fingerprint : Nat) : Except SignatureFault (List DoCall) :=
  -- Check for too many arguments.
  if fingerprint = Fingerprinter.tooMany then do
    let it ← iterateParameters sig
    return it.calls.map DoType.call
  else
    -- A word has no more features than this.
    iterateFeatures (bitsPerLong / parameterFeatureSize)
      (fingerprint >>> (staticFeatureSize + resultFeatureSize)) 0

end SignatureIterator

end HotSpot
