import HotSpot.Classfile.VerificationType
import Mathlib

/-! # Stack map tables

The reader of `stackMapTable.cpp`: it decodes the `StackMapTable` attribute of a method into
frames. An error is reported as a pending exception or to the verifier; the reader may go on
reading before it looks at either.
-/

namespace HotSpot

open ClassFileParser

/-- What `generate_code_data` says about a byte of the code. -/
inductive CodeMark where
  | inside
  | bytecode
  | new
  deriving DecidableEq, Repr

inductive StackMapError where
  /-- StackMapTable format error: access beyond the end of attribute -/
  | accessBeyondEnd
  /-- StackMapTable format error: bad class index -/
  | badClassIndex
  /-- StackMapTable format error: bad offset for Uninitialized -/
  | badOffsetForUninitialized
  /-- StackMapTable format error: bad verification type -/
  | badVerificationType
  /-- StackMapTable format error: bad type array size -/
  | badTypeArraySize
  /-- StackMapTable format error: reserved frame type -/
  | reservedFrameType
  /-- StackMapTable error: bad offset -/
  | badOffset
  /-- StackMapTable format error: wrong attribute size -/
  | wrongAttributeSize
  deriving DecidableEq, Repr

/-- A frame of the table. Of the arrays only the elements that count are given. -/
structure StackMapFrame where
  offset : Nat
  /-- `FLAG_THIS_UNINIT`, the only flag. -/
  flagThisUninit : Bool
  locals : List VerificationType
  stack : List VerificationType
  deriving DecidableEq, Repr

/-- The bytes that are still to be read, and the errors so far. -/
structure StackMapStream where
  rest : Bytes
  errors : List StackMapError
  deriving DecidableEq, Repr

namespace StackMapStream

def report (s : StackMapStream) (e : StackMapError) : StackMapStream :=
  { s with errors := s.errors ++ [e] }

def getU1 (s : StackMapStream) : Nat × StackMapStream :=
  match s.rest with
  | [] => (0, s.report .accessBeyondEnd)
  | b :: rest => (b.toNat, { s with rest := rest })

def getU2 (s : StackMapStream) : Nat × StackMapStream :=
  match s.rest with
  | b1 :: b2 :: rest => (b1.toNat * 256 + b2.toNat, { s with rest := rest })
  | _ => (0, s.report .accessBeyondEnd)

end StackMapStream

/-- The method that the reader works for: the names of the classes in its constant pool, the
marks of its code and its limits. -/
structure StackMapReader where
  klassNameAt : Nat → Option Bytes
  codeData : List CodeMark
  /-- The parser has checked the length of the code. -/
  codeLength_le : codeData.length ≤ 65535
  maxLocals : Nat
  maxStack : Nat

namespace StackMapReader

open StackMapStream

variable (r : StackMapReader)

-- The tags of `verificationType.hpp`.
def itemUninitializedThis : Nat := 6
def itemObject : Nat := 7
def itemUninitialized : Nat := 8

/-- `VerificationType::from_tag` -/
def fromTag : Nat → VerificationType
  | 1 => .integer
  | 2 => .float
  | 3 => .double
  | 4 => .long
  | 5 => .null
  | _ => .bogus

def parseVerificationType (s : StackMapStream) : VerificationType × StackMapStream :=
  let (tag, s) := s.getU1
  if tag < itemUninitializedThis then (fromTag tag, s)
  else if tag = itemObject then
    let (classIndex, s) := s.getU2
    match r.klassNameAt classIndex with
    | none => (.bogus, s.report .badClassIndex)
    | some name => (.reference name, s)
  else if tag = itemUninitializedThis then (VerificationType.uninitializedThis, s)
  else if tag = itemUninitialized then
    let (offset, s) := s.getU2
    if r.codeData.getD offset .inside ≠ .new then (.bogus, s.report .badOffsetForUninitialized)
    else (.uninitialized offset, s)
  else (.bogus, s.report .badVerificationType)

/-- The slots of a type: a long or double has a second half. -/
def slots (t : VerificationType) : List VerificationType :=
  if t.isCategory2 then [t, t.toCategory2Second] else [t]

/-- The loop over the types of a frame, which does not stop at an error. -/
def parseTypes :
    Nat → List VerificationType → StackMapStream → List VerificationType × StackMapStream
  | 0, types, s => (types, s)
  | count + 1, types, s =>
    let (t, s) := r.parseVerificationType s
    parseTypes count (types ++ slots t) s

/-- `check_verification_type_array_size` -/
def checkSize (size : Int) (maxSize : Nat) (s : StackMapStream) : StackMapStream :=
  if size < 0 ∨ (maxSize : Int) < size then s.report .badTypeArraySize else s

/-- The loop of `chop`. In front of the array there is nothing to find; whatever is read there,
the position is negative afterwards. -/
def chopLoop (locals : List VerificationType) (chops : Nat) : Nat → Nat → Int → Int
  | 0, _, pos => pos + 1
  | count + 1, i, pos =>
    let local_ := if pos < 0 then .bogus else locals.getD pos.toNat .bogus
    let pos := if local_.isCategory2Second then pos - 2 else pos - 1
    if pos < 0 ∧ i + 1 < chops then -1 else chopLoop locals chops count (i + 1) pos

def chop (locals : List VerificationType) (chops : Nat) : Int :=
  chopLoop locals chops chops 0 (locals.length - 1)

def hasUninitializedThis (locals : List VerificationType) : Bool :=
  locals.any (·.isUninitializedThis)

def sameLocals1StackItemExtended : Nat := 247
def sameExtended : Nat := 251
def full : Nat := 255

/-- What a frame with one item on the stack and the same locals is. -/
def sameLocals1 (offset : Nat) (preFrame : StackMapFrame) (s : StackMapStream) :
    Option StackMapFrame × StackMapStream :=
  let (t, s) := r.parseVerificationType s
  if s.errors ≠ [] then (none, s)
  else
    let stack := slots t
    let s := checkSize stack.length r.maxStack s
    if s.errors ≠ [] then (none, s)
    else (some ⟨offset, preFrame.flagThisUninit, preFrame.locals, stack⟩, s)

def chopFrame (frameType offset : Nat) (preFrame : StackMapFrame) (s : StackMapStream) :
    Option StackMapFrame × StackMapStream :=
  let chops := sameExtended - frameType
  if chops ≠ 0 then
    let newLength := chop preFrame.locals chops
    let s := checkSize newLength r.maxLocals s
    if s.errors ≠ [] then (none, s)
    else
      let locals := preFrame.locals.take newLength.toNat
      -- uninitializedThis could have been chopped
      (some ⟨offset, hasUninitializedThis locals, locals, []⟩, s)
  else (some ⟨offset, preFrame.flagThisUninit, preFrame.locals, []⟩, s)

def appendFrame (frameType offset : Nat) (preFrame : StackMapFrame) (s : StackMapStream) :
    Option StackMapFrame × StackMapStream :=
  let (added, s) := r.parseTypes (frameType - sameExtended) [] s
  let locals := preFrame.locals ++ added
  let s := checkSize locals.length r.maxLocals s
  if s.errors ≠ [] then (none, s)
  else (some ⟨offset, preFrame.flagThisUninit || hasUninitializedThis added, locals, []⟩, s)

def fullFrame (offset : Nat) (s : StackMapStream) : Option StackMapFrame × StackMapStream :=
  let (localsSize, s) := s.getU2
  let (locals, s) := r.parseTypes localsSize [] s
  let s := checkSize locals.length r.maxLocals s
  if s.errors ≠ [] then (none, s)
  else
    let (stackSize, s) := s.getU2
    let (stack, s) := r.parseTypes stackSize [] s
    let s := checkSize stack.length r.maxStack s
    if s.errors ≠ [] then (none, s)
    else (some ⟨offset, hasUninitializedThis locals, locals, stack⟩, s)

/-- `StackMapReader::next` -/
def next (preFrame : StackMapFrame) (first : Bool) (s : StackMapStream) :
    Option StackMapFrame × StackMapStream :=
  let offsetAfter delta := if first then delta else preFrame.offset + delta + 1
  let (frameType, s) := s.getU1
  if frameType < 64 then
    (some ⟨offsetAfter frameType, preFrame.flagThisUninit, preFrame.locals, []⟩, s)
  else if frameType < 128 then r.sameLocals1 (offsetAfter (frameType - 64)) preFrame s
  else
    let (offsetDelta, s) := s.getU2
    if frameType < sameLocals1StackItemExtended then (none, s.report .reservedFrameType)
    else if frameType = sameLocals1StackItemExtended then
      r.sameLocals1 (offsetAfter offsetDelta) preFrame s
    else if frameType ≤ sameExtended then r.chopFrame frameType (offsetAfter offsetDelta) preFrame s
    else if frameType < sameExtended + 4 then
      r.appendFrame frameType (offsetAfter offsetDelta) preFrame s
    else r.fullFrame (offsetAfter offsetDelta) s

/-- The loop of the constructor of `StackMapTable`. -/
def readFrames : Nat → StackMapFrame → Bool → StackMapStream → List StackMapFrame × StackMapStream
  | 0, _, _, s => ([], s)
  | count + 1, preFrame, first, s =>
    match r.next preFrame first s with
    | (none, s) => ([], s)
    | (some frame, s) =>
      if s.errors ≠ [] then ([], s)
      else if r.codeData.getD frame.offset .inside = .inside then ([], s.report .badOffset)
      else
        let (frames, s) := readFrames count frame false s
        (frame :: frames, s)

/-- The reader and the table of a method with the attribute `data`: the frames, and the errors
that have been reported. -/
def stackMapTable (initFrame : StackMapFrame) (data : Bytes) :
    List StackMapFrame × List StackMapError :=
  let (frameCount, s) := getU2 ⟨data, []⟩
  let (frames, s) := r.readFrames frameCount initFrame true s
  if 0 < frameCount ∧ s.errors ≠ [] then (frames, s.errors)
  else
    let s := if s.rest ≠ [] then s.report .wrongAttributeSize else s
    (frames, s.errors)

end StackMapReader

/-! ## The format of stack map tables

The `StackMapTable` attribute as the specification describes it: forms of frames, their bytes
and the frames that they stand for. The reader accepts exactly these attributes.
-/

open StackMapReader

/-- `verification_type_info` -/
inductive TypeInfo where
  | top | integer | float | double | long | null | uninitializedThis
  | object (classIndex : Nat)
  | uninitialized (offset : Nat)

/-- Two bytes, the high one first. -/
def u2 (n : Nat) : Bytes := [UInt8.ofNat (n / 256), UInt8.ofNat (n % 256)]

namespace TypeInfo

def encode : TypeInfo → Bytes
  | top => [0]
  | integer => [1]
  | float => [2]
  | double => [3]
  | long => [4]
  | null => [5]
  | uninitializedThis => [6]
  | object classIndex => 7 :: u2 classIndex
  | uninitialized offset => 8 :: u2 offset

/-- The type that the item stands for in a method. -/
inductive Denotes (r : StackMapReader) : TypeInfo → VerificationType → Prop
  | top : Denotes r top .bogus
  | integer : Denotes r integer .integer
  | float : Denotes r float .float
  | double : Denotes r double .double
  | long : Denotes r long .long
  | null : Denotes r null .null
  | uninitializedThis : Denotes r uninitializedThis VerificationType.uninitializedThis
  | object {classIndex : Nat} {name : Bytes} (hlt : classIndex < 2 ^ 16)
      (hname : r.klassNameAt classIndex = some name) :
      Denotes r (object classIndex) (.reference name)
  | uninitialized {offset : Nat} (hlt : offset < 2 ^ 16)
      (hnew : r.codeData.getD offset .inside = .new) :
      Denotes r (uninitialized offset) (.uninitialized offset)

end TypeInfo

/-- `stack_map_frame` -/
inductive FrameForm where
  | same (offsetDelta : Nat)
  | sameLocals1 (offsetDelta : Nat) (stack : TypeInfo)
  | sameLocals1Extended (offsetDelta : Nat) (stack : TypeInfo)
  | chop (count offsetDelta : Nat)
  | sameExtended (offsetDelta : Nat)
  | append (offsetDelta : Nat) (locals : List TypeInfo)
  | full (offsetDelta : Nat) (locals stack : List TypeInfo)

/-- A frame without the second halves of longs and doubles. -/
structure FrameTypes where
  offset : Nat
  locals : List VerificationType
  stack : List VerificationType

namespace FrameTypes

/-- The frame as the verifier keeps it. -/
def toFrame (f : FrameTypes) : StackMapFrame where
  offset := f.offset
  flagThisUninit := hasUninitializedThis f.locals
  locals := f.locals.flatMap slots
  stack := f.stack.flatMap slots

/-- The frame stays within the limits of the method and is at the start of an instruction. -/
structure Fits (r : StackMapReader) (f : FrameTypes) : Prop where
  locals : (f.locals.flatMap slots).length ≤ r.maxLocals
  stack : (f.stack.flatMap slots).length ≤ r.maxStack
  start : r.codeData.getD f.offset .inside ≠ .inside

end FrameTypes

namespace FrameForm

def encode : FrameForm → Bytes
  | same offsetDelta => [UInt8.ofNat offsetDelta]
  | sameLocals1 offsetDelta stack => UInt8.ofNat (64 + offsetDelta) :: stack.encode
  | sameLocals1Extended offsetDelta stack => 247 :: (u2 offsetDelta ++ stack.encode)
  | chop count offsetDelta => UInt8.ofNat (251 - count) :: u2 offsetDelta
  | sameExtended offsetDelta => 251 :: u2 offsetDelta
  | append offsetDelta locals =>
    UInt8.ofNat (251 + locals.length) :: (u2 offsetDelta ++ locals.flatMap (·.encode))
  | full offsetDelta locals stack =>
    255 :: (u2 offsetDelta ++ (u2 locals.length ++ (locals.flatMap (·.encode) ++
      (u2 stack.length ++ stack.flatMap (·.encode)))))

/-- The offset of a frame counts from the frame before it, or from the start of the code. -/
def offsetAfter (pre : FrameTypes) (first : Bool) (offsetDelta : Nat) : Nat :=
  if first then offsetDelta else pre.offset + offsetDelta + 1

/-- The frame that a form stands for behind the frame `pre`. -/
inductive Denotes (r : StackMapReader) (pre : FrameTypes) (first : Bool) :
    FrameForm → FrameTypes → Prop
  | same {delta : Nat} (hdelta : delta < 64) :
      Denotes r pre first (same delta) ⟨offsetAfter pre first delta, pre.locals, []⟩
  | sameLocals1 {delta : Nat} {info : TypeInfo} {t : VerificationType} (hdelta : delta < 64)
      (ht : info.Denotes r t) :
      Denotes r pre first (sameLocals1 delta info) ⟨offsetAfter pre first delta, pre.locals, [t]⟩
  | sameLocals1Extended {delta : Nat} {info : TypeInfo} {t : VerificationType}
      (hdelta : delta < 2 ^ 16) (ht : info.Denotes r t) :
      Denotes r pre first (sameLocals1Extended delta info)
        ⟨offsetAfter pre first delta, pre.locals, [t]⟩
  | chop {count delta : Nat} (hpos : 1 ≤ count) (hcount : count ≤ 3)
      (hlocals : count ≤ pre.locals.length) (hdelta : delta < 2 ^ 16) :
      Denotes r pre first (chop count delta)
        ⟨offsetAfter pre first delta, pre.locals.take (pre.locals.length - count), []⟩
  | sameExtended {delta : Nat} (hdelta : delta < 2 ^ 16) :
      Denotes r pre first (sameExtended delta) ⟨offsetAfter pre first delta, pre.locals, []⟩
  | append {delta : Nat} {infos : List TypeInfo} {types : List VerificationType}
      (hpos : 1 ≤ infos.length) (hcount : infos.length ≤ 3) (hdelta : delta < 2 ^ 16)
      (htypes : List.Forall₂ (TypeInfo.Denotes r) infos types) :
      Denotes r pre first (append delta infos)
        ⟨offsetAfter pre first delta, pre.locals ++ types, []⟩
  | full {delta : Nat} {infos stackInfos : List TypeInfo} {types stackTypes : List VerificationType}
      (hlocals : infos.length < 2 ^ 16) (hstack : stackInfos.length < 2 ^ 16)
      (hdelta : delta < 2 ^ 16) (htypes : List.Forall₂ (TypeInfo.Denotes r) infos types)
      (hstackTypes : List.Forall₂ (TypeInfo.Denotes r) stackInfos stackTypes) :
      Denotes r pre first (full delta infos stackInfos)
        ⟨offsetAfter pre first delta, types, stackTypes⟩

end FrameForm

/-- The frames of a table, each of which fits. -/
inductive TableDenotes (r : StackMapReader) :
    FrameTypes → Bool → List FrameForm → List FrameTypes → Prop
  | nil {pre : FrameTypes} {first : Bool} : TableDenotes r pre first [] []
  | cons {pre f : FrameTypes} {first : Bool} {form : FrameForm} {forms : List FrameForm}
      {frames : List FrameTypes} (hform : form.Denotes r pre first f) (hfits : f.Fits r)
      (hrest : TableDenotes r f false forms frames) :
      TableDenotes r pre first (form :: forms) (f :: frames)

end HotSpot
