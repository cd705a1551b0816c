import HotSpot.Classfile.Signature
import Mathlib

/-! # The parsers of method signatures

`SignatureVerifier`, the guard that the verifier asks, and the two parsers of
`signature.cpp` that trust it: `SignatureIterator`, which calls a virtual method for
each type, and `SignatureStream`, which stops at each type. `_parameter_index` is `-1`
during the return type, and a byte is read only at an index inside the symbol.
-/

namespace HotSpot

open ClassFileParser (Bytes Letter.array Letter.byte Letter.char Letter.cls Letter.endClass
  Letter.float Letter.double Letter.func Letter.endFunc Letter.int Letter.long Letter.short
  Letter.void Letter.boolean Letter.dot)

/-- `BasicType`, the types that a signature can name. -/
inductive BasicType where
  | boolean | char | float | double | byte | short | int | long | object | array | void
  deriving DecidableEq, Repr

/-- `T_*_size`, in words. -/
def BasicType.size : BasicType → Nat
  | .double | .long => 2
  | .void => 0
  | _ => 1

/-- The types of one letter. -/
def BasicType.ofLetter? (c : UInt8) : Option BasicType :=
  if c = Letter.byte then some .byte
  else if c = Letter.char then some .char
  else if c = Letter.double then some .double
  else if c = Letter.float then some .float
  else if c = Letter.int then some .int
  else if c = Letter.long then some .long
  else if c = Letter.short then some .short
  else if c = Letter.boolean then some .boolean
  else if c = Letter.void then some .void
  else none

/-! ## The guard -/

namespace SignatureVerifier

def invalidNameChar (c : UInt8) : Bool :=
  c = 0 ∨ c = Letter.dot ∨ c = Letter.endClass ∨ c = Letter.array

/-- The loop over a class name: the number of bytes up to and with the `;`. -/
def nameLength : Bytes → Option Nat
  | [] => none
  | c :: p =>
    if c = Letter.endClass then some 1
    else if invalidNameChar c then none
    else (nameLength p).map (· + 1)

/-- The number of bytes of the type at the start, none for `-1`. The bytes are those up
to `limit`. -/
def isValidType : Bytes → Option Nat
  | [] => none
  | c :: p =>
    if c = Letter.array then (isValidType p).map (· + 1)
    else if (BasicType.ofLetter? c).isSome then some 1
    else if c = Letter.cls then (nameLength p).map (· + 1)
    else none

/-- The loop over the parameters, at `index`, to the `)` and the return type. -/
def isValidParameters (methodSig : Bytes) : Nat → Nat → Bool
  | 0, _ => false
  | fuel + 1, index =>
    match methodSig[index]? with
    | none => false
    | some c =>
      if c ≠ Letter.endFunc then
        match isValidType (methodSig.drop index) with
        | none => false
        | some res => isValidParameters methodSig fuel (index + res)
      else
        isValidType (methodSig.drop (index + 1)) = some (methodSig.length - (index + 1))

-- A round of the loop moves on by at least one byte.
def isValidMethodSignature (methodSig : Bytes) : Bool :=
  decide (1 < methodSig.length) && decide (methodSig[0]? = some Letter.func) &&
    isValidParameters methodSig methodSig.length 1

end SignatureVerifier

/-! ## Reading a symbol -/

/-- How a parser that trusts its signature can go wrong. -/
inductive SignatureFault where
  /-- The assertion of `byte_at`. -/
  | pastEnd
  | shouldNotReachHere
  /-- expecting %c -/
  | expecting (c : UInt8)
  /-- A loop that has not ended after as many rounds as there are bytes. -/
  | unfinished
  deriving DecidableEq, Repr

section Scans

variable (sig : Bytes)

def byteAt (index : Nat) : Except SignatureFault UInt8 :=
  match sig[index]? with
  | some c => .ok c
  | none => .error .pastEnd

def isDigit (c : UInt8) : Bool := 0x30 ≤ c ∧ c ≤ 0x39

/-- `while (sig->byte_at(index++) != ';')` -/
def skipClassName : Nat → Nat → Except SignatureFault Nat
  | 0, _ => .error .unfinished
  | fuel + 1, index => do
      let c ← byteAt sig index
      if c = Letter.endClass then return index + 1 else skipClassName fuel (index + 1)

end Scans

/-! ## The iterator -/

/-- A call of a `do_*` method. `first` and `next` are `_index` before and after the type;
`arguments` are those of `do_object` and `do_array`. -/
structure DoType where
  type : BasicType
  arguments : Option (Nat × Nat)
  first : Nat
  next : Nat
  parameterIndex : Int
  deriving DecidableEq, Repr

structure SignatureIterator where
  index : Nat
  parameterIndex : Int
  returnType : Option BasicType
  /-- The calls made so far. -/
  calls : List DoType
  deriving DecidableEq, Repr

namespace SignatureIterator

variable (sig : Bytes)

def expect (c : UInt8) (it : SignatureIterator) : Except SignatureFault SignatureIterator := do
  let d ← byteAt sig it.index
  if d = c then return { it with index := it.index + 1 } else throw (.expecting c)

def skipOptionalSize : Nat → Nat → Except SignatureFault Nat
  | 0, _ => .error .unfinished
  | fuel + 1, index => do
      let c ← byteAt sig index
      if isDigit c then skipOptionalSize fuel (index + 1) else return index

/-- The rest of the dimensions of an array, behind the first `[` and its size. -/
def skipDimensions : Nat → Nat → Except SignatureFault Nat
  | 0, _ => .error .unfinished
  | fuel + 1, index => do
      let c ← byteAt sig index
      if c = Letter.array then
        let index ← skipOptionalSize sig sig.length (index + 1)
        skipDimensions fuel index
      else return index

/-- The element type of an array. -/
def skipElement (index : Nat) : Except SignatureFault Nat := do
  let c ← byteAt sig index
  if c = Letter.cls then skipClassName sig sig.length index else return index + 1

/-- The type at `index`, what `do_object` or `do_array` is called with and the index
behind the type. -/
def scanType (index : Nat) :
    Except SignatureFault (BasicType × Option (Nat × Nat) × Nat) := do
  let c ← byteAt sig index
  match BasicType.ofLetter? c with
  | some type => return (type, none, index + 1)
  | none =>
    if c = Letter.cls then
      let next ← skipClassName sig sig.length (index + 1)
      return (.object, some (index + 1, next), next)
    else if c = Letter.array then
      let element ← skipOptionalSize sig sig.length (index + 1)
      let element ← skipDimensions sig sig.length element
      let next ← skipElement sig element
      return (.array, some (index + 1, next), next)
    else throw .shouldNotReachHere

/-- Also the size of the type. -/
def parseType (it : SignatureIterator) :
    Except SignatureFault (Nat × SignatureIterator) := do
  let (type, arguments, next) ← scanType sig it.index
  return (type.size, { it with
    index := next
    returnType := if it.parameterIndex < 0 then some type else it.returnType
    calls := it.calls ++ [⟨type, arguments, it.index, next, it.parameterIndex⟩] })

/-- `while (byte_at(_index) != ')') _parameter_index += parse_type();` -/
def parseParameters : Nat → SignatureIterator → Except SignatureFault SignatureIterator
  | 0, _ => .error .unfinished
  | fuel + 1, it => do
      let c ← byteAt sig it.index
      if c ≠ Letter.endFunc then
        let (size, it) ← parseType sig it
        parseParameters fuel { it with parameterIndex := it.parameterIndex + size }
      else return it

def start : SignatureIterator := ⟨0, 0, none, []⟩

/-- The part that `iterate` and `iterate_parameters` share. -/
def parenthesized : Except SignatureFault SignatureIterator := do
  let it ← expect sig Letter.func start
  let it ← parseParameters sig sig.length it
  expect sig Letter.endFunc it

def iterateParameters : Except SignatureFault SignatureIterator := do
  let it ← parenthesized sig
  return { it with parameterIndex := 0 }

-- `check_signature_end` only prints.
def iterate : Except SignatureFault SignatureIterator := do
  let it ← parenthesized sig
  let (_, it) ← parseType sig { it with parameterIndex := -1 }
  return { it with parameterIndex := 0 }

end SignatureIterator

/-- `size`: every call adds the size of its type. -/
def ArgumentSizeComputer.size (sig : Bytes) : Except SignatureFault Nat := do
  let it ← SignatureIterator.iterateParameters sig
  return (it.calls.map (·.type.size)).sum

/-! ## The stream -/

structure SignatureStream where
  begin : Nat
  stop : Nat
  /-- None before it is set. -/
  type : Option BasicType
  atReturnType : Bool
  deriving DecidableEq, Repr

namespace SignatureStream

variable (sig : Bytes)

def isDone (ss : SignatureStream) : Bool := sig.length < ss.stop

/-- `while ('0' <= c && c <= '9') c = sig->byte_at(_end++);` -/
def skipDigits : Nat → UInt8 → Nat → Except SignatureFault Nat
  | 0, _, _ => .error .unfinished
  | fuel + 1, c, stop => do
      if isDigit c then
        let c ← byteAt sig stop
        skipDigits fuel c (stop + 1)
      else return stop

/-- `c = sig->byte_at(_end)` and the loop over the digits. -/
def skipSize (stop : Nat) : Except SignatureFault Nat := do
  let c ← byteAt sig stop
  skipDigits sig (sig.length + 1) c stop

def skipDimensions : Nat → Nat → Except SignatureFault Nat
  | 0, _ => .error .unfinished
  | fuel + 1, stop => do
      let c ← byteAt sig stop
      if c = Letter.array then
        let stop ← skipSize sig (stop + 1)
        skipDimensions fuel stop
      else return stop

/-- The element type of an array: a letter other than `V`, else all up to the next `;`. -/
def skipElement (stop : Nat) : Except SignatureFault Nat := do
  let c ← byteAt sig stop
  match BasicType.ofLetter? c with
  | some .void | none => skipClassName sig sig.length stop
  | some _ => return stop + 1

/-- `next`, which `next_non_primitive` calls again behind the `)`. -/
def next : Nat → SignatureStream → Except SignatureFault SignatureStream
  | 0, _ => .error .unfinished
  | fuel + 1, ss =>
    if sig.length ≤ ss.stop then return { ss with stop := sig.length + 1 }
    else do
      let t ← byteAt sig ss.stop
      match BasicType.ofLetter? t with
      | some type =>
        return { ss with begin := ss.stop, type := some type, stop := ss.stop + 1 }
      | none =>
        if t = Letter.cls then
          let stop ← skipClassName sig sig.length ss.stop
          return { ss with begin := ss.stop, type := some .object, stop := stop }
        else if t = Letter.array then
          let element ← skipSize sig ss.stop
          let element ← skipDimensions sig sig.length element
          let stop ← skipElement sig element
          return { ss with begin := ss.stop, type := some .array, stop := stop }
        else if t = Letter.endFunc then
          let ss ← next fuel { ss with begin := ss.stop, stop := ss.stop + 1 }
          return { ss with atReturnType := true }
        else throw .shouldNotReachHere

/-- The constructor, for a method. -/
def ofMethod : Except SignatureFault SignatureStream :=
  next sig sig.length ⟨1, 1, none, false⟩

/-- `for (; !ss.is_done(); ss.next())`, the stops of the stream. -/
def stops : Nat → SignatureStream → Except SignatureFault (List SignatureStream)
  | 0, _ => .error .unfinished
  | fuel + 1, ss =>
    if ss.isDone sig then return []
    else do
      let ss' ← next sig sig.length ss
      let rest ← stops fuel ss'
      return ss :: rest

def enumerate : Except SignatureFault (List SignatureStream) := do
  let ss ← ofMethod sig
  stops sig (sig.length + 1) ss

end SignatureStream

end HotSpot
