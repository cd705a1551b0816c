import HotSpot.Interpreter.Bytecodes
import Mathlib

/-! # Relocation of bytecodes

An instruction of a method is replaced by one of another length: the code behind it moves,
jumps over it change, and the changes that this brings about, jumps that no longer reach
their targets and switches that are no longer aligned, are queued and handled one by one.
-/

namespace HotSpot

open ClassFileParser

/-! ## Lengths of bytecodes -/

namespace Bytecodes

open Bytecode

/-- `Bytecodes::length_for`: 0 for the bytecodes of variable length. -/
def lengthFor (opcode : Nat) : Nat :=
  if opcode ≤ 15 then 1
  else if opcode = 16 then 2
  else if opcode = 17 then 3
  else if opcode = 18 then 2
  else if opcode ≤ 20 then 3
  else if opcode ≤ 25 then 2
  else if opcode ≤ 53 then 1
  else if opcode ≤ 58 then 2
  else if opcode ≤ 131 then 1
  else if opcode = 132 then 3
  else if opcode ≤ 152 then 1
  else if opcode ≤ 168 then 3
  else if opcode = 169 then 2
  else if opcode ≤ 171 then 0
  else if opcode ≤ 177 then 1
  else if opcode ≤ 184 then 3
  else if opcode ≤ 186 then 5
  else if opcode = 187 then 3
  else if opcode = 188 then 2
  else if opcode = 189 then 3
  else if opcode ≤ 191 then 1
  else if opcode ≤ 193 then 3
  else if opcode ≤ 195 then 1
  else if opcode = 196 then 0
  else if opcode = 197 then 4
  else if opcode ≤ 199 then 3
  else if opcode ≤ 201 then 5
  else if opcode = 202 then 0
  -- The bytecodes of the VM follow.
  else if opcode ≤ 218 then 3
  else if opcode = 219 then 1
  else if opcode ≤ 222 then 4
  else if opcode = 223 then 2
  else if opcode = 224 then 4
  else if opcode ≤ 226 then 3
  else if opcode ≤ 228 then 0
  else if opcode ≤ 230 then 1
  else 0

def wideLengthFor (opcode : Nat) : Nat :=
  if (21 ≤ opcode ∧ opcode ≤ 25) ∨ (54 ≤ opcode ∧ opcode ≤ 58) ∨ opcode = 169 then 4
  else if opcode = 132 then 6
  else 0

/-- lookupswitch, fast_linearswitch and fast_binaryswitch -/
def isLookupswitch (opcode : Nat) : Bool := opcode = 171 ∨ opcode = 227 ∨ opcode = 228

def isTableswitch (opcode : Nat) : Bool := opcode = 170

def isSwitch (opcode : Nat) : Bool := isTableswitch opcode || isLookupswitch opcode

/-- The conditional branches. -/
def isIf (opcode : Nat) : Bool := (153 ≤ opcode ∧ opcode ≤ 166) ∨ opcode = 198 ∨ opcode = 199

/-- goto and jsr -/
def isGoto (opcode : Nat) : Bool := opcode = 167 ∨ opcode = 168

/-- The branches with an offset of two bytes. -/
def isShortJump (opcode : Nat) : Bool := isIf opcode || isGoto opcode

/-- goto_w and jsr_w -/
def isWideJump (opcode : Nat) : Bool := opcode = 200 ∨ opcode = 201

/-- The padding of a switch at `bci`. -/
def switchPad (bci : Nat) : Nat := alignedBcp bci - (bci + 1)

/-- The length of a tableswitch or lookupswitch with a padding. -/
def switchLength (code : Bytes) (bci pad : Nat) : Int :=
  if isTableswitch (u1At code bci) then
    let lo := jintAt code (bci + 1 + pad + 4)
    let hi := jintAt code (bci + 1 + pad + 8)
    1 + pad + 4 * (3 + (hi - lo + 1))
  else
    let npairs := jintAt code (bci + 1 + pad + 4)
    1 + pad + 4 * (2 + 2 * npairs)

/-- `Bytecodes::special_length_at` -/
def specialLengthAt (code : Bytes) (bci : Nat) : Int :=
  let opcode := u1At code bci
  if opcode = 196 then wideLengthFor (u1At code (bci + 1))
  else if isSwitch opcode then
    let len := switchLength code bci (switchPad bci)
    if 0 < len ∧ len < 2 ^ 31 then len else -1
  else 0

/-- `Bytecodes::length_at` -/
def lengthAt (code : Bytes) (bci : Nat) : Int :=
  let l := lengthFor (u1At code bci)
  if 0 < l then l else specialLengthAt code bci

end Bytecodes

/-! ## Methods -/

structure LocalVariableTableElement where
  startBci : Nat
  length : Nat
  nameCpIndex : Nat
  descriptorCpIndex : Nat
  signatureCpIndex : Nat
  slot : Nat
  deriving DecidableEq, Repr

/-- The code of a method and the tables that go with it. -/
structure ConstMethodOop where
  code : Bytes
  nameIndex : Nat
  signatureIndex : Nat
  genericSignatureIndex : Nat
  checkedExceptions : List Nat
  /-- Quadruples of a start, an end, a handler and an index. -/
  exceptionTable : List Int
  /-- Pairs of a bci and a line. -/
  lineNumberTable : Option (List (Int × Int))
  localVariableTable : List LocalVariableTableElement
  stackmapData : Option Bytes
  deriving DecidableEq, Repr

/-! ## Changes -/

/-- A code change request. -/
inductive ChangeItem where
  /-- The new length of the instruction, and its new bytecodes. -/
  | widen (bci newIlen : Nat) (instBuffer : Bytes)
  | jumpWiden (bci : Nat) (delta : Int)
  | switchPad (bci padding : Nat) (isLookupSwitch : Bool)
  deriving DecidableEq, Repr

namespace ChangeItem

def bci : ChangeItem → Nat
  | widen bci _ _ | jumpWiden bci _ | switchPad bci _ _ => bci

def mapBci (f : Nat → Nat) : ChangeItem → ChangeItem
  | widen bci newIlen instBuffer => widen (f bci) newIlen instBuffer
  | jumpWiden bci delta => jumpWiden (f bci) delta
  | switchPad bci padding isLookupSwitch => switchPad (f bci) padding isLookupSwitch

/-- Where the change behind `breakBci` moves a bci. -/
def moved (breakBci : Nat) (delta : Int) (bci : Nat) : Nat :=
  if bci > breakBci then (bci + delta).toNat else bci

def relocate (breakBci : Nat) (delta : Int) (ci : ChangeItem) : ChangeItem :=
  ci.mapBci (moved breakBci delta)

/-- `ChangeJumpWiden::adjust`, if the bci matches. -/
def adjust (jumpBci : Nat) (change : Int) : ChangeItem → Option ChangeItem
  | jumpWiden bci delta =>
    if bci = jumpBci then
      some (jumpWiden bci (if delta > 0 then delta + change else delta - change))
    else none
  | _ => none

end ChangeItem

structure Relocator where
  method : ConstMethodOop
  codeArray : Bytes
  codeArrayLength : Nat
  codeLength : Nat
  compressedLineNumberTable : Option (List (Int × Int))
  /-- The bytes at the end of a shrunken instruction. -/
  overwrite : Bytes
  changes : List ChangeItem

def maxMethodLength : Nat := 65535

def maxShort : Int := 2 ^ 15 - 1

def minShort : Int := -2 ^ 15

/-- `memcpy` of `bytes` to an address. -/
def putBytes (a : Bytes) (i : Nat) (bytes : Bytes) : Bytes :=
  a.take i ++ bytes ++ a.drop (i + bytes.length)

/-- `memmove` of `n` bytes. -/
def moveBytes (a : Bytes) (dst src n : Nat) : Bytes := putBytes a dst ((a.drop src).take n)

/-- The two bytes of a short, and the four of an int. -/
def shortBytes (v : Int) : Bytes :=
  [UInt8.ofNat ((v % 2 ^ 16).toNat / 2 ^ 8), UInt8.ofNat ((v % 2 ^ 16).toNat % 2 ^ 8)]

def intBytes (v : Int) : Bytes := shortBytes (v / 2 ^ 16) ++ shortBytes v

namespace Relocator

open Bytecode Bytecodes

variable (r : Relocator)

def codeAt (bci : Nat) : Nat := u1At r.codeArray bci

def shortAt (i : Nat) : Int := toShort (u2At r.codeArray i)

def intAt (i : Nat) : Int := jintAt r.codeArray i

def shortAtPut (i : Nat) (v : Int) : Relocator :=
  { r with codeArray := putBytes r.codeArray i (shortBytes v) }

def intAtPut (i : Nat) (v : Int) : Relocator :=
  { r with codeArray := putBytes r.codeArray i (intBytes v) }

def codeAtPut (i opcode : Nat) : Relocator :=
  { r with codeArray := putBytes r.codeArray i [UInt8.ofNat opcode] }

/-- The padding that is recorded for a switch, if a change is queued for it. -/
def getOrigSwitchPad (bci : Nat) (isLookupSwitch : Bool) : Option Nat :=
  r.changes.findSome? fun
    | .switchPad itemBci padding lookup =>
      if lookup = isLookupSwitch ∧ itemBci = bci then some padding else none
    | _ => none

/-- The length of an instruction, which may be a switch that is not aligned. -/
def rcInstrLen (bci : Nat) : Int :=
  let bc := r.codeAt bci
  if isSwitch bc then
    match r.getOrigSwitchPad bci (isLookupswitch bc) with
    | none => lengthAt r.codeArray bci
    | some pad => switchLength r.codeArray bci pad
  else lengthAt r.codeArray bci

/-! ## Jumps -/

/-- Adjust the first item that matches. -/
def adjustFirst (bci : Nat) (delta : Int) : List ChangeItem → Option (List ChangeItem)
  | [] => none
  | ci :: rest =>
    match ci.adjust bci delta with
    | some ci => some (ci :: rest)
    | none => (adjustFirst bci delta rest).map (ci :: ·)

def pushJumpWiden (bci : Nat) (delta newDelta : Int) : Relocator :=
  { r with changes :=
      (adjustFirst bci delta r.changes).getD (r.changes ++ [.jumpWiden bci newDelta]) }

/-- The jump at `bci` has its offset at `offset`. If it crosses `breakBci`, its span changes. -/
def changeJump (bci offset : Nat) (isShort : Bool) (breakBci : Nat) (delta : Int) : Relocator :=
  let bciDelta := if isShort then r.shortAt offset else r.intAt offset
  let targ := bci + bciDelta
  if (bci ≤ breakBci ∧ targ > breakBci) ∨ (bci > breakBci ∧ targ ≤ breakBci) then
    let newDelta := if bciDelta > 0 then bciDelta + delta else bciDelta - delta
    if isShort ∧ (newDelta > maxShort ∨ newDelta < minShort) then
      r.pushJumpWiden bci delta newDelta
    else if isShort then r.shortAtPut offset newDelta
    else r.intAtPut offset newDelta
  else r

/-- Where the offsets of a switch are, from its first one. -/
def switchOffsets (bci pad : Nat) : List Nat :=
  if isTableswitch (r.codeAt bci) then
    let lo := r.intAt (bci + 1 + pad + 4)
    let hi := r.intAt (bci + 1 + pad + 8)
    (List.range (hi - lo + 1).toNat).map fun k => bci + 1 + pad + 4 * (k + 3)
  else
    let npairs := r.intAt (bci + 1 + pad + 4)
    (List.range npairs.toNat).map fun k => bci + 1 + pad + 4 * (2 + 2 * k + 1)

def changeSwitch (bci breakBci : Nat) (delta : Int) : Relocator :=
  let isLookup := isLookupswitch (r.codeAt bci)
  let recPad := r.getOrigSwitchPad bci isLookup
  let oldPad := recPad.getD (switchPad bci)
  let newPad := switchPad (bci + delta).toNat
  let r :=
    if bci > breakBci ∧ newPad ≠ oldPad ∧ recPad = none then
      { r with changes := r.changes ++ [.switchPad bci oldPad isLookup] }
    else r
  let r := r.changeJump bci (bci + 1 + oldPad) false breakBci delta
  (r.switchOffsets bci oldPad).foldl
    (fun r offset => r.changeJump bci offset false breakBci delta) r

/-- The jumps of the instruction at a bci. -/
def changeInstr (bci breakBci : Nat) (delta : Int) : Relocator :=
  let bc := r.codeAt bci
  if isShortJump bc then r.changeJump bci (bci + 1) true breakBci delta
  else if isWideJump bc then r.changeJump bci (bci + 1) false breakBci delta
  else if isSwitch bc then r.changeSwitch bci breakBci delta
  else r

/-- The next bci, which for a switch comes from the padding before the change. -/
def nextBci (bci : Nat) : Nat :=
  let bc := r.codeAt bci
  if isSwitch bc then
    let oldPad := (r.getOrigSwitchPad bci (isLookupswitch bc)).getD (switchPad bci)
    (bci + switchLength r.codeArray bci oldPad).toNat
  else (bci + r.rcInstrLen bci).toNat

/-- The loop of `change_jumps` from a bci. An instruction has one byte at least. -/
def changeJumpsFrom (breakBci : Nat) (delta : Int) : Nat → Nat → Relocator → Relocator
  | 0, _, r => r
  | fuel + 1, bci, r =>
    if bci < r.codeLength then
      changeJumpsFrom breakBci delta fuel (r.nextBci bci) (r.changeInstr bci breakBci delta)
    else r

def changeJumps (breakBci : Nat) (delta : Int) : Relocator :=
  changeJumpsFrom breakBci delta r.codeLength 0 r

/-! ## Tables -/

/-- The entries of the exception table, four numbers each. -/
def adjustExceptionTable (bci : Nat) (delta : Int) : List Int → List Int
  | start :: stop :: handler :: index :: rest =>
    let handler' := if handler > bci then handler + delta else handler
    if start > bci then
      (start + delta) :: (stop + delta) :: handler' :: index ::
        adjustExceptionTable bci delta rest
    else if bci < stop then
      start :: (stop + delta) :: handler' :: index :: adjustExceptionTable bci delta rest
    else start :: stop :: handler' :: index :: adjustExceptionTable bci delta rest
  | rest => rest

def adjustLineNoTable (bci : Nat) (delta : Int) : Relocator :=
  match r.method.lineNumberTable with
  | none => r
  | some table =>
    { r with
      compressedLineNumberTable :=
        some (table.map fun (b, line) => (b + (if b > bci then delta else 0), line)) }

/-- The fields are of two bytes. -/
def adjustLocalVar (bci : Nat) (delta : Int) (e : LocalVariableTableElement) :
    LocalVariableTableElement :=
  if e.startBci > bci then { e with startBci := ((e.startBci + delta) % 2 ^ 16).toNat }
  else if e.startBci + e.length > bci then { e with length := ((e.length + delta) % 2 ^ 16).toNat }
  else e

/-! ## Code changes -/

/-- `expand_code_array`, which fails when the code gets too long. -/
def expandCodeArray (delta : Int) : Bool × Relocator :=
  let length := max (r.codeLength + delta).toNat (r.codeLength * 125 / 100)
  if length > maxMethodLength then
    if delta = 0 ∧ r.codeLength ≤ maxMethodLength then (true, expandTo maxMethodLength)
    else (false, r)
  else (true, expandTo length)
where
  expandTo (length : Nat) : Relocator :=
    { r with
      codeArray := putBytes (List.replicate length 0) 0 (r.codeArray.take r.codeLength)
      codeArrayLength := length }

/-- The code behind an instruction moves, and everything that refers to a bci follows. -/
def moveCode (bci ilen : Nat) (delta : Int) : Relocator :=
  let r := r.changeJumps bci delta
  let nextBci := bci + ilen
  let r :=
    if delta < 0 then
      { r with overwrite := (r.codeArray.drop (nextBci + delta).toNat).take (-delta).toNat }
    else r
  let r := { r with
    codeArray := moveBytes r.codeArray (nextBci + delta).toNat nextBci (r.codeLength - nextBci)
    codeLength := (r.codeLength + delta).toNat }
  let r := { r with method := { r.method with
    exceptionTable := adjustExceptionTable bci delta r.method.exceptionTable } }
  let r := r.adjustLineNoTable bci delta
  { r with
    method := { r.method with
      localVariableTable := r.method.localVariableTable.map (adjustLocalVar bci delta) }
    changes := r.changes.map (ChangeItem.relocate bci delta) }

def relocateCode (bci ilen : Nat) (delta : Int) : Bool × Relocator :=
  if delta > 0 ∧ r.codeLength + delta > r.codeArrayLength then
    match r.expandCodeArray delta with
    | (true, r) => (true, r.moveCode bci ilen delta)
    | (false, r) => (false, r)
  else (true, r.moveCode bci ilen delta)

def handleWiden (bci newIlen : Nat) (instBuffer : Bytes) : Bool × Relocator :=
  let ilen := (r.rcInstrLen bci).toNat
  match r.relocateCode bci ilen (newIlen - ilen) with
  | (false, r) => (false, r)
  | (true, r) =>
    (true, { r with codeArray := putBytes r.codeArray bci (instBuffer.take newIlen) })

def gotoOpcode : Nat := 167

def gotoWOpcode : Nat := 200

def jsrWOpcode : Nat := 201

/-- An if becomes an if over a goto to a goto_w, and a goto a goto_w. There is no result for an
instruction that is not a jump. -/
def handleJumpWiden (bci : Nat) (delta : Int) : Option (Bool × Relocator) :=
  let ilen := (r.rcInstrLen bci).toNat
  let bc := r.codeAt bci
  let gotoLength := lengthFor gotoOpcode
  if isIf bc then
    let addBci := gotoLength + lengthFor gotoWOpcode
    some <| match r.relocateCode bci 3 addBci with
      | (false, r) => (false, r)
      | (true, r) =>
        let r := r.shortAtPut (bci + 1) (ilen + gotoLength)
        let cbci := bci + ilen
        let r := (r.codeAtPut cbci gotoOpcode).shortAtPut (cbci + 1) addBci
        let cbci := cbci + gotoLength
        let r := r.codeAtPut cbci gotoWOpcode
        let delta := if delta > 0 then delta + 2 else delta - (ilen + gotoLength)
        (true, r.intAtPut (cbci + 1) delta)
  else if isGoto bc then
    some <| match r.relocateCode bci 3 2 with
      | (false, r) => (false, r)
      | (true, r) =>
        let r := r.codeAtPut bci (if bc = gotoOpcode then gotoWOpcode else jsrWOpcode)
        let delta := if delta > 0 then delta + 2 else delta
        (true, r.intAtPut (bci + 1) delta)
  else none

/-- The number of words of a switch behind its padding. -/
def switchWords (bci oldPad : Nat) (isLookupSwitch : Bool) : Nat :=
  if isLookupSwitch then
    let npairs := r.intAt (bci + 1 + oldPad + 4)
    (npairs * 2 + 2).toNat
  else
    let low := r.intAt (bci + 1 + oldPad + 4)
    let high := r.intAt (bci + 1 + oldPad + 8)
    (high - low + 1 + 3).toNat

def handleSwitchPad (bci oldPad : Nat) (isLookupSwitch : Bool) : Bool × Relocator :=
  let ilen := (r.rcInstrLen bci).toNat
  let newPad := switchPad bci
  let padDelta : Int := newPad - oldPad
  if padDelta = 0 then (true, r)
  else
    let len := r.switchWords bci oldPad isLookupSwitch
    match r.relocateCode bci ilen padDelta with
    | (false, r) => (false, r)
    | (true, r) =>
      if padDelta < 0 then
        let kept := (len * 4 + padDelta).toNat
        let a := moveBytes r.codeArray (bci + 1 + newPad) (bci + 1 + oldPad) kept
        (true, { r with
          codeArray := putBytes a (bci + 1 + newPad + kept) (r.overwrite.take (-padDelta).toNat) })
      else
        (true, { r with
          codeArray := moveBytes r.codeArray (bci + 1 + newPad) (bci + 1 + oldPad) (len * 4) })

def handleCodeChange : ChangeItem → Option (Bool × Relocator)
  | .widen bci newIlen instBuffer => some (r.handleWiden bci newIlen instBuffer)
  | .jumpWiden bci delta => r.handleJumpWiden bci delta
  | .switchPad bci padding isLookupSwitch => some (r.handleSwitchPad bci padding isLookupSwitch)

/-- `handle_code_changes`, for so many changes at most. The item that is handled stays in front
of the queue meanwhile. -/
def handleCodeChanges : Nat → Relocator → Option (Bool × Relocator)
  | 0, _ => none
  | fuel + 1, r =>
    match r.changes with
    | [] => some (true, r)
    | ci :: _ =>
      match r.handleCodeChange ci with
      | none => none
      | some (false, r) => some (false, r)
      | some (true, r) => handleCodeChanges fuel { r with changes := r.changes.tail }

/-- What a listener is notified of when a change is handled: a bci, and by how much the code
behind it moves. -/
def notified : ChangeItem → Nat × Int
  | .widen bci newIlen _ => (bci, newIlen - (r.rcInstrLen bci).toNat)
  | .jumpWiden bci _ => (bci, if isIf (r.codeAt bci) then 8 else 2)
  | .switchPad bci padding _ => (bci, switchPad bci - padding)

/-- The constructor. There is none when the code is too long. -/
def new (method : ConstMethodOop) : Option Relocator :=
  let r : Relocator :=
    { method, codeArray := method.code, codeArrayLength := method.code.length,
      codeLength := method.code.length, compressedLineNumberTable := none, overwrite := [],
      changes := [] }
  match r.expandCodeArray 0 with
  | (true, r) => some r
  | (false, _) => none

/-- `clone_with_new_data` -/
def newMethod : ConstMethodOop :=
  { r.method with
    code := r.codeArray.take r.codeLength
    lineNumberTable := r.compressedLineNumberTable }

/-- Replace the instruction at `bci` by one of `size` bytes. The method is none when a change
was refused, and the old method is changed in any case. -/
def insertSpaceAt (fuel bci size : Nat) (instBuffer : Bytes) :
    Option (Option ConstMethodOop × Relocator) :=
  match handleCodeChanges fuel { r with changes := [.widen bci size instBuffer] } with
  | none => none
  | some (false, r) => some (none, r)
  | some (true, r) => some (some r.newMethod, { r with method := r.newMethod })

end Relocator

end HotSpot
