import HotSpot.Runtime.Relocator
import Mathlib

/-! # The raw bytecode stream

`RawBytecodeStream::raw_next` goes from one bytecode of a method to the next. The length of a
bytecode comes from the table of `Bytecodes`, or from the operands of a wide or a switch.
-/

namespace HotSpot

open ClassFileParser Bytecode Bytecodes

/-! ## The stream -/

/-- The sum of two `int`s. -/
def addInt (a b : Int) : Int := (a + b).bmod (2 ^ 32)

/-- The positions of the stream. Without a last code it is `_illegal`. -/
structure RawBytecodeStream where
  bci : Int
  nextBci : Int
  code : Option Nat
  isWide : Bool
  deriving DecidableEq, Repr

/-- The stream over the whole code of a method. -/
def RawBytecodeStream.start : RawBytecodeStream := ⟨0, 0, none, false⟩

/-- A byte of the code array; there is none outside of it. -/
def readU1 (code : Bytes) (i : Int) : Option Nat :=
  if 0 ≤ i ∧ i < code.length then some (u1At code i.toNat) else none

/-- `Bytes::get_Java_u4` as a `jint`, where all four bytes are in the code array. -/
def readJint (code : Bytes) (i : Nat) : Option Int :=
  if i + 4 ≤ code.length then some (jintAt code i) else none

/-- The table of lengths has an entry for each bytecode of the VM. It is read without a check, so
that other bytes get what is behind it. -/
def tableLength (overrun : Nat → UInt8) (opcode : Nat) : Nat :=
  if opcode < 231 then lengthFor opcode else (overrun opcode).toNat

/-- A length is returned only if it is a positive `int`. -/
def positiveInt (len : Int) : Int := if 0 < len ∧ len < 2 ^ 31 then len else -1

/-- `Bytecodes::special_length_at`, which does not read past the end of the code. -/
def rawSwitchLength (code : Bytes) (bci opcode : Nat) : Option Int :=
  let aligned := alignedBcp bci
  if isTableswitch opcode then
    if code.length ≤ aligned + 12 then some (-1)
    else do
      let lo ← readJint code (aligned + 4)
      let hi ← readJint code (aligned + 8)
      return positiveInt (((aligned - bci : Nat) : Int) + (3 + hi - lo + 1) * 4)
  else if isLookupswitch opcode then
    if code.length ≤ aligned + 8 then some (-1)
    else do
      let npairs ← readJint code (aligned + 4)
      return positiveInt (((aligned - bci : Nat) : Int) + (2 + 2 * npairs) * 4)
  else some 0

/-- `Bytecodes::raw_special_length_at` -/
def rawSpecialLengthAt (code : Bytes) (bci opcode : Nat) : Option Int :=
  if opcode = 202 then some 1
  else if opcode = 196 then
    if code.length ≤ bci + 1 then some (-1)
    else (readU1 code (bci + 1)).map fun wideOpcode => (wideLengthFor wideOpcode : Int)
  else rawSwitchLength code bci opcode

namespace RawBytecodeStream

variable (overrun : Nat → UInt8) (code : Bytes)

/-- `raw_next_special`, with the code and the stream that it leaves. -/
def rawNextSpecial (opcode : Nat) (s : RawBytecodeStream) :
    Option (Option Nat × RawBytecodeStream) :=
  match rawSpecialLengthAt code s.bci.toNat opcode with
  | none => none
  | some l =>
    if l ≤ 0 ∨ (code.length : Int) < addInt s.bci l then some (none, { s with code := none })
    else
      let s := { s with nextBci := addInt s.nextBci l, isWide := false }
      if opcode = 196 then
        if (code.length : Int) ≤ s.bci + 1 then some (none, { s with code := none })
        else
          (readU1 code (s.bci + 1)).map fun wideOpcode =>
            (some wideOpcode, { s with code := some wideOpcode, isWide := true })
      else some (some opcode, { s with code := some opcode })

/-- `raw_next`; nothing is left when it reads outside of the code. -/
def rawNext (s : RawBytecodeStream) : Option (Option Nat × RawBytecodeStream) :=
  let s := { s with bci := s.nextBci }
  match readU1 code s.bci with
  | none => none
  | some opcode =>
    let l := tableLength overrun opcode
    if 0 < l ∧ addInt s.bci l ≤ code.length then
      some (some opcode,
        { s with nextBci := addInt s.nextBci l, isWide := false, code := some opcode })
    else if opcode = 196 ∧ (code.length : Int) ≤ addInt s.bci 1 then some (none, s)
    else rawNextSpecial code opcode s

/-- The positions of the bytecodes up to the end of the code, or up to an illegal one. -/
def scan : Nat → RawBytecodeStream → Option (List (Int × Int) × Bool)
  | 0, s => if code.length ≤ s.nextBci then some ([], true) else none
  | fuel + 1, s =>
    if code.length ≤ s.nextBci then some ([], true)
    else
      match rawNext overrun code s with
      | none => none
      | some (none, _) => some ([], false)
      | some (some _, s') =>
        (scan fuel s').map fun result => ((s.nextBci, s'.nextBci) :: result.1, result.2)

end RawBytecodeStream

/-! ## Splitting code into instructions

The instructions of the class-file format, compared with what the raw bytecode stream makes of an
array of bytes.
-/

/-! ## The format -/

/-- The lengths of the instructions that are neither wide nor a switch. -/
def formatLength (opcode : Nat) : Option Nat :=
  if opcode = 170 ∨ opcode = 171 ∨ opcode = 196 ∨ 201 < opcode then none
  else if opcode = 197 then some 4
  else if opcode = 185 ∨ opcode = 186 ∨ opcode = 200 ∨ opcode = 201 then some 5
  else if opcode = 17 ∨ opcode = 19 ∨ opcode = 20 ∨ opcode = 132 ∨ (153 ≤ opcode ∧ opcode ≤ 168) ∨
      (178 ≤ opcode ∧ opcode ≤ 184) ∨ opcode = 187 ∨ opcode = 189 ∨ opcode = 192 ∨
      opcode = 193 ∨ opcode = 198 ∨ opcode = 199 then some 3
  else if opcode = 16 ∨ opcode = 18 ∨ (21 ≤ opcode ∧ opcode ≤ 25) ∨
      (54 ≤ opcode ∧ opcode ≤ 58) ∨ opcode = 169 ∨ opcode = 188 then some 2
  else some 1

/-- The lengths of the instructions that wide may precede, with the wide. -/
def wideFormatLength (opcode : Nat) : Option Nat :=
  if opcode = 132 then some 6
  else if (21 ≤ opcode ∧ opcode ≤ 25) ∨ (54 ≤ opcode ∧ opcode ≤ 58) ∨ opcode = 169 then some 4
  else none

set_option maxRecDepth 8000 in
theorem formatLength_eq : ∀ opcode < 202, formatLength opcode =
    if opcode = 170 ∨ opcode = 171 ∨ opcode = 196 then none else some (lengthFor opcode) := by
  decide

theorem formatLength_pos {opcode len : Nat} (h : formatLength opcode = some len) : 0 < len := by
  unfold formatLength at h
  split_ifs at h <;> cases h <;> decide

theorem formatLength_of_lt {opcode : Nat} (h : 201 < opcode) : formatLength opcode = none :=
  if_pos (.inr (.inr (.inr h)))

theorem wideFormatLength_eq_some {opcode len : Nat} :
    wideFormatLength opcode = some len ↔ wideLengthFor opcode = len ∧ 0 < len := by
  unfold wideFormatLength wideLengthFor
  split_ifs <;> simp <;> omega

/-- The size of a switch by its operands, with the padding. -/
def switchSize (code : Bytes) (bci : Nat) : Int :=
  let aligned := alignedBcp bci
  let padded := ((aligned - bci : Nat) : Int)
  if isTableswitch (u1At code bci) then
    padded + 12 + 4 * (jintAt code (aligned + 8) - jintAt code (aligned + 4) + 1)
  else padded + 8 + 8 * jintAt code (aligned + 4)

/-- The last byte of the operands of a switch that come before the table. -/
def switchHeader (code : Bytes) (bci : Nat) : Nat :=
  alignedBcp bci + if isTableswitch (u1At code bci) then 12 else 8

/-- The length that the format gives to the instruction at `bci`. A tableswitch without a case
that is lower than its `low` is one where the stream can measure it. -/
def instructionLength (code : Bytes) (bci : Nat) : Option Int :=
  let opcode := u1At code bci
  let aligned := alignedBcp bci
  if opcode = 196 then (wideFormatLength (u1At code (bci + 1))).map fun len : Nat => (len : Int)
  else if opcode = 170 then
    if jintAt code (aligned + 4) ≤ jintAt code (aligned + 8) ∨
        (switchHeader code bci < code.length ∧ 0 < switchSize code bci) then
      some (switchSize code bci)
    else none
  else if opcode = 171 then
    if 0 ≤ jintAt code (aligned + 4) then some (switchSize code bci) else none
  else (formatLength opcode).map fun len : Nat => (len : Int)

/-- A complete instruction starts at `bci` and fits in the remaining bytes. -/
def Complete (code : Bytes) (bci : Nat) (len : Int) : Prop :=
  instructionLength code bci = some len ∧ bci + len ≤ code.length

theorem Complete.unique {code : Bytes} {bci : Nat} {len len' : Int} (h : Complete code bci len)
    (h' : Complete code bci len') : len = len' := Option.some.inj (h.1.symm.trans h'.1)

/-! ## What the stream measures -/

section Measured

variable (overrun : Nat → UInt8) (code : Bytes) (bci : Nat)

/-- The length that `raw_next` works with. -/
def measuredLength : Int :=
  let opcode := u1At code bci
  if 0 < tableLength overrun opcode then tableLength overrun opcode
  else if opcode = 202 then 1
  else if opcode = 196 then
    if code.length ≤ bci + 1 then -1 else wideLengthFor (u1At code (bci + 1))
  else if isSwitch opcode then
    if code.length ≤ switchHeader code bci then -1 else positiveInt (switchSize code bci)
  else 0

variable {code bci}

theorem readU1_of_lt {i : Nat} (hlt : i < code.length) : readU1 code i = some (u1At code i) :=
  if_pos ⟨Int.natCast_nonneg i, Int.ofNat_lt.2 hlt⟩

theorem readJint_of_le {i : Nat} (hle : i + 4 ≤ code.length) :
    readJint code i = some (jintAt code i) := if_pos hle

theorem rawSwitchLength_eq : rawSwitchLength code bci (u1At code bci) =
    some (if isSwitch (u1At code bci) then
      if code.length ≤ switchHeader code bci then -1 else positiveInt (switchSize code bci)
    else 0) := by
  unfold rawSwitchLength switchHeader switchSize isSwitch
  by_cases htable : isTableswitch (u1At code bci) = true
  · simp only [htable, if_true, Bool.true_or]
    split
    next => rfl
    next hlt =>
      rw [readJint_of_le (by omega), readJint_of_le (by omega)]
      simp only [Option.bind_eq_bind, Option.bind_some, pure]
      congr 2
      omega
  · simp only [htable, Bool.false_or, if_false, Bool.false_eq_true]
    split
    · split
      next => rfl
      next hlt =>
        rw [readJint_of_le (by omega)]
        simp only [Option.bind_eq_bind, Option.bind_some, pure]
        congr 2
        omega
    next => rfl

theorem rawSpecialLengthAt_eq (hlength : tableLength overrun (u1At code bci) = 0) :
    rawSpecialLengthAt code bci (u1At code bci) = some (measuredLength overrun code bci) := by
  have htable : ¬ 0 < tableLength overrun (u1At code bci) := by omega
  unfold rawSpecialLengthAt measuredLength
  simp only [htable, if_false]
  split
  next => rfl
  next =>
    split
    next =>
      split
      next => rfl
      next hlt =>
        have hread : readU1 code ((bci : Int) + 1) = some (u1At code (bci + 1)) :=
          readU1_of_lt (i := bci + 1) (by omega)
        rw [hread]
        rfl
    next => exact rawSwitchLength_eq

/-- A bytecode of fixed length is no special one. -/
theorem rawSpecialLengthAt_of_pos {opcode : Nat} (hlength : 0 < tableLength overrun opcode) :
    rawSpecialLengthAt code bci opcode = some 0 := by
  have hnot : opcode ≠ 202 ∧ opcode ≠ 196 ∧ isTableswitch opcode = false ∧
      isLookupswitch opcode = false := by
    refine ⟨?_, ?_, ?_, ?_⟩
    · rintro rfl
      exact Nat.lt_irrefl 0 hlength
    · rintro rfl
      exact Nat.lt_irrefl 0 hlength
    · rw [isTableswitch, decide_eq_false_iff_not]
      rintro rfl
      exact Nat.lt_irrefl 0 hlength
    · rw [isLookupswitch, decide_eq_false_iff_not]
      rintro (rfl | rfl | rfl) <;> exact Nat.lt_irrefl 0 hlength
  unfold rawSpecialLengthAt rawSwitchLength
  simp only [hnot, if_false, Bool.false_eq_true]

end Measured

/-! ## Sums of ints -/

theorem addInt_eq (a b : Int) : addInt a b =
    if (a + b) % 4294967296 < 2147483648 then (a + b) % 4294967296
    else (a + b) % 4294967296 - 4294967296 := rfl

theorem addInt_of_lt {a b : Int} (hnonneg : 0 ≤ a + b) (hlt : a + b < 2 ^ 31) :
    addInt a b = a + b := by
  rw [addInt_eq]
  split <;> omega

theorem addInt_of_ge {a b : Int} (hge : 2 ^ 31 ≤ a + b) (hlt : a + b < 2 ^ 32) :
    addInt a b = a + b - 2 ^ 32 := by
  rw [addInt_eq]
  split <;> omega

set_option maxRecDepth 8000 in
theorem lengthFor_le : ∀ opcode < 231, lengthFor opcode ≤ 5 := by decide

theorem tableLength_lt (overrun : Nat → UInt8) (opcode : Nat) :
    tableLength overrun opcode < 256 := by
  unfold tableLength
  split
  next hlt => exact Nat.lt_of_le_of_lt (lengthFor_le opcode hlt) (by decide)
  next => exact UInt8.toNat_lt _

theorem measuredLength_lt (overrun : Nat → UInt8) (code : Bytes) (bci : Nat) :
    measuredLength overrun code bci < 2 ^ 31 := by
  have htable := tableLength_lt overrun (u1At code bci)
  have hwide : wideLengthFor (u1At code (bci + 1)) ≤ 6 := by
    unfold wideLengthFor
    split_ifs <;> decide
  unfold measuredLength positiveInt
  dsimp only
  split_ifs <;> omega

/-! ## One bytecode -/

namespace RawBytecodeStream

variable {overrun : Nat → UInt8} {code : Bytes} {bci : Nat} {s : RawBytecodeStream} {len : Int}

/-- A positive length is enough if the next position is in the code or the sum overflows. -/
theorem rawNext_code (hsize : code.length < 2 ^ 16) (hlt : bci < code.length)
    (hnext : s.nextBci = bci) (hlen : measuredLength overrun code bci = len) (hpos : 0 < len)
    (hfit : bci + len ≤ code.length ∨ 2 ^ 31 ≤ bci + len) :
    ∃ c s', rawNext overrun code s = some (some c, s') ∧ s'.nextBci = addInt bci len := by
  have hmax := measuredLength_lt overrun code bci
  have hread := readU1_of_lt hlt
  obtain ⟨b, n, c, w⟩ := s
  dsimp only at hnext
  subst hnext
  unfold rawNext
  simp only [hread]
  by_cases htable : 0 < tableLength overrun (u1At code bci)
  · have hsame : (tableLength overrun (u1At code bci) : Int) = len := by
      rw [← hlen, measuredLength, if_pos htable]
    have hle := tableLength_lt overrun (u1At code bci)
    have hsum : addInt bci len = bci + len := addInt_of_lt (by omega) (by omega)
    rw [hsame, if_pos ⟨htable, by omega⟩]
    exact ⟨_, _, rfl, rfl⟩
  · have hzero : tableLength overrun (u1At code bci) = 0 := by omega
    have hwide : u1At code bci = 196 → bci + 1 < code.length := by
      intro hop
      by_contra hge
      have hneg : measuredLength overrun code bci = -1 := by
        unfold measuredLength
        dsimp only
        rw [if_neg htable, if_neg (by omega), if_pos hop, if_pos (by omega)]
      omega
    have hone : addInt bci 1 = bci + 1 := addInt_of_lt (by omega) (by omega)
    have hstay : ¬ (len ≤ 0 ∨ (code.length : Int) < addInt bci len) := by
      rintro (hle | hgt)
      · omega
      · by_cases hover : (2 : Int) ^ 31 ≤ bci + len
        · rw [addInt_of_ge hover (by omega)] at hgt
          omega
        · rw [addInt_of_lt (by omega) (by omega)] at hgt
          omega
    rw [if_neg fun h => htable h.1, if_neg, rawNextSpecial]
    · simp only [Int.toNat_natCast, rawSpecialLengthAt_eq overrun hzero, hlen, if_neg hstay]
      split
      next hop =>
        have hsecond : readU1 code ((bci : Int) + 1) = some (u1At code (bci + 1)) :=
          readU1_of_lt (i := bci + 1) (hwide hop)
        have hin := hwide hop
        rw [if_neg (by omega), hsecond]
        exact ⟨_, _, rfl, rfl⟩
      next => exact ⟨_, _, rfl, rfl⟩
    · rintro ⟨hop, hge⟩
      have hin := hwide hop
      omega

theorem rawNext_illegal (hsize : code.length < 2 ^ 16) (hlt : bci < code.length)
    (hnext : s.nextBci = bci) (hlen : measuredLength overrun code bci = len)
    (hfail : len ≤ 0 ∨ (code.length < bci + len ∧ bci + len < 2 ^ 31)) :
    ∃ s', rawNext overrun code s = some (none, s') := by
  have hread := readU1_of_lt hlt
  obtain ⟨b, n, c, w⟩ := s
  dsimp only at hnext
  subst hnext
  unfold rawNext
  simp only [hread]
  by_cases htable : 0 < tableLength overrun (u1At code bci)
  · have hsame : (tableLength overrun (u1At code bci) : Int) = len := by
      rw [← hlen, measuredLength, if_pos htable]
    have hle := tableLength_lt overrun (u1At code bci)
    have hsum : addInt bci len = bci + len := addInt_of_lt (by omega) (by omega)
    rw [hsame, if_neg (by omega)]
    split
    next => exact ⟨_, rfl⟩
    next =>
      rw [rawNextSpecial, rawSpecialLengthAt_of_pos overrun htable]
      exact ⟨_, rfl⟩
  · have hzero : tableLength overrun (u1At code bci) = 0 := by omega
    have hstop : len ≤ 0 ∨ (code.length : Int) < addInt bci len := by
      refine hfail.imp_right fun ⟨hgt, hmax⟩ => ?_
      rwa [addInt_of_lt (by omega) hmax]
    rw [if_neg fun h => htable h.1]
    split
    next => exact ⟨_, rfl⟩
    next =>
      rw [rawNextSpecial]
      simp only [Int.toNat_natCast, rawSpecialLengthAt_eq overrun hzero, hlen, if_pos hstop]
      exact ⟨_, rfl⟩

end RawBytecodeStream

/-! ## Where the stream and the format differ -/

/-- What the stream takes for an instruction or does not, unlike the format. -/
inductive Misread (overrun : Nat → UInt8) (code : Bytes) (bci : Nat) : Prop
  /-- A byte above the opcodes of the format, for which the table has a length. -/
  | vmBytecode (hop : 202 ≤ u1At code bci) (hpos : 0 < tableLength overrun (u1At code bci))
      (hfit : bci + tableLength overrun (u1At code bci) ≤ code.length)
  | breakpoint (hop : u1At code bci = 202)
  /-- fast_linearswitch and fast_binaryswitch -/
  | vmSwitch (hop : u1At code bci = 227 ∨ u1At code bci = 228)
      (hheader : switchHeader code bci < code.length) (hpos : 0 < switchSize code bci)
      (hfit : bci + switchSize code bci ≤ code.length)
  /-- A lookupswitch without pairs that ends with the code. -/
  | emptyLookupswitch (hop : u1At code bci = 171)
      (hnpairs : jintAt code (alignedBcp bci + 4) = 0) (hend : switchHeader code bci = code.length)
  /-- A lookupswitch whose number of pairs takes away the operands before them. -/
  | negativeLookupswitch (hop : u1At code bci = 171)
      (hnpairs : jintAt code (alignedBcp bci + 4) = -1)
      (hheader : switchHeader code bci < code.length)
  /-- A switch whose size is an `int`, but not the position behind it. -/
  | overflow (hop : isSwitch (u1At code bci) = true) (hheader : switchHeader code bci < code.length)
      (hsize : switchSize code bci < 2 ^ 31) (hover : 2 ^ 31 ≤ bci + switchSize code bci)

/-- `raw_next` gives a code for a positive length if the next position is in the code or the sum
overflows. -/
def Yields (overrun : Nat → UInt8) (code : Bytes) (bci : Nat) : Prop :=
  0 < measuredLength overrun code bci ∧
    (bci + measuredLength overrun code bci ≤ code.length ∨
      2 ^ 31 ≤ bci + measuredLength overrun code bci)

/-- The stream goes on exactly at the complete instructions, and by their lengths. -/
structure Agrees (overrun : Nat → UInt8) (code : Bytes) (bci : Nat) : Prop where
  complete : Yields overrun code bci → Complete code bci (measuredLength overrun code bci)
  yields : ∀ len, Complete code bci len → Yields overrun code bci

section Comparison

variable {overrun : Nat → UInt8} {code : Bytes} {bci : Nat}

theorem padding_bounds (bci : Nat) :
    1 ≤ alignedBcp bci - bci ∧ alignedBcp bci - bci ≤ 4 := by
  unfold alignedBcp
  omega

theorem measuredLength_fixed (overrun : Nat → UInt8) (hwide : u1At code bci ≠ 196)
    (hbreakpoint : u1At code bci ≠ 202) (hswitch : isSwitch (u1At code bci) = false) :
    measuredLength overrun code bci = tableLength overrun (u1At code bci) := by
  unfold measuredLength
  simp only [hwide, hbreakpoint, hswitch, if_false, Bool.false_eq_true]
  split
  next => rfl
  next => omega

theorem measuredLength_breakpoint (hop : u1At code bci = 202) :
    measuredLength overrun code bci = 1 := by
  have hzero : tableLength overrun 202 = 0 := rfl
  simp [measuredLength, hop, hzero]

theorem measuredLength_wide (overrun : Nat → UInt8) (hop : u1At code bci = 196) :
    measuredLength overrun code bci =
      if code.length ≤ bci + 1 then (-1 : Int) else wideLengthFor (u1At code (bci + 1)) := by
  have hzero : tableLength overrun 196 = 0 := rfl
  simp [measuredLength, hop, hzero]

theorem isSwitch_iff {opcode : Nat} :
    isSwitch opcode = true ↔ opcode = 170 ∨ opcode = 171 ∨ opcode = 227 ∨ opcode = 228 := by
  simp [isSwitch, isTableswitch, isLookupswitch]

theorem measuredLength_switch (hswitch : isSwitch (u1At code bci) = true) :
    measuredLength overrun code bci =
      if code.length ≤ switchHeader code bci then -1 else positiveInt (switchSize code bci) := by
  have hnot : ¬ 0 < tableLength overrun (u1At code bci) ∧ u1At code bci ≠ 202 ∧
      u1At code bci ≠ 196 := by
    rcases isSwitch_iff.1 hswitch with hop | hop | hop | hop <;> rw [hop] <;>
      exact ⟨Nat.lt_irrefl 0, by decide, by decide⟩
  simp only [measuredLength, hnot, hswitch, if_false, if_true]

theorem instructionLength_fixed (hwide : u1At code bci ≠ 196)
    (hswitch : isSwitch (u1At code bci) = false) :
    instructionLength code bci =
      (formatLength (u1At code bci)).map fun len : Nat => (len : Int) := by
  have hnot : u1At code bci ≠ 170 ∧ u1At code bci ≠ 171 := by
    refine ⟨?_, ?_⟩ <;> intro hop <;> rw [hop] at hswitch <;> cases hswitch
  simp only [instructionLength, hwide, hnot, if_false]

theorem not_complete_of_lt (hop : 201 < u1At code bci) (len : Int) : ¬ Complete code bci len := by
  rintro ⟨hlength, -⟩
  have hnot : u1At code bci ≠ 196 ∧ u1At code bci ≠ 170 ∧ u1At code bci ≠ 171 := by omega
  simp [instructionLength, hnot, formatLength_of_lt hop] at hlength

/-- A switch is not shorter than its operands before the table, unless a number in them is
negative. -/
theorem switchSize_lookupswitch (code : Bytes) (bci : Nat)
    (hop : isTableswitch (u1At code bci) = false) :
    switchSize code bci = ((alignedBcp bci - bci : Nat) : Int) + 8 +
      8 * jintAt code (alignedBcp bci + 4) ∧ switchHeader code bci = alignedBcp bci + 8 := by
  simp [switchSize, switchHeader, hop]

theorem switchSize_tableswitch (code : Bytes) (bci : Nat)
    (hop : isTableswitch (u1At code bci) = true) :
    switchSize code bci = ((alignedBcp bci - bci : Nat) : Int) + 12 +
      4 * (jintAt code (alignedBcp bci + 8) - jintAt code (alignedBcp bci + 4) + 1) ∧
    switchHeader code bci = alignedBcp bci + 12 := by
  simp [switchSize, switchHeader, hop]

theorem measuredLength_of_yields (hswitch : isSwitch (u1At code bci) = true)
    (h : Yields overrun code bci) :
    measuredLength overrun code bci = switchSize code bci ∧
      switchHeader code bci < code.length ∧ switchSize code bci < 2 ^ 31 := by
  obtain ⟨hpos, -⟩ := h
  rw [measuredLength_switch hswitch] at hpos ⊢
  unfold positiveInt at hpos ⊢
  split_ifs at hpos ⊢ <;> omega

theorem yields_of_switch (overrun : Nat → UInt8) (hswitch : isSwitch (u1At code bci) = true)
    (hheader : switchHeader code bci < code.length) (hpos : 0 < switchSize code bci)
    (hmax : switchSize code bci < 2 ^ 31)
    (hfit : bci + switchSize code bci ≤ code.length ∨ 2 ^ 31 ≤ bci + switchSize code bci) :
    Yields overrun code bci := by
  have hmeasured : measuredLength overrun code bci = switchSize code bci := by
    rw [measuredLength_switch hswitch, if_neg (by omega), positiveInt, if_pos ⟨hpos, hmax⟩]
  rw [Yields, hmeasured]
  exact ⟨hpos, hfit⟩

theorem instructionLength_tableswitch (hop : u1At code bci = 170) :
    instructionLength code bci =
      if jintAt code (alignedBcp bci + 4) ≤ jintAt code (alignedBcp bci + 8) ∨
          (switchHeader code bci < code.length ∧ 0 < switchSize code bci) then
        some (switchSize code bci)
      else none := by
  simp [instructionLength, hop]

theorem instructionLength_lookupswitch (hop : u1At code bci = 171) :
    instructionLength code bci =
      if 0 ≤ jintAt code (alignedBcp bci + 4) then some (switchSize code bci) else none := by
  simp [instructionLength, hop]

theorem agrees_tableswitch (hsize : code.length < 2 ^ 16) (hop : u1At code bci = 170)
    (h : ¬ Misread overrun code bci) : Agrees overrun code bci := by
  have hswitch : isSwitch (u1At code bci) = true := isSwitch_iff.2 (.inl hop)
  obtain ⟨hsame, hheader⟩ := switchSize_tableswitch code bci (by rw [hop]; rfl)
  have hpadding := padding_bounds bci
  refine ⟨?_, ?_⟩
  · intro hyields
    obtain ⟨hmeasured, hin, hmax⟩ := measuredLength_of_yields hswitch hyields
    obtain ⟨hpos, hfit⟩ := hyields
    rw [hmeasured] at hpos hfit ⊢
    refine ⟨?_, hfit.resolve_right fun hover => h (.overflow hswitch hin hmax hover)⟩
    rw [instructionLength_tableswitch hop, if_pos (.inr ⟨hin, hpos⟩)]
  · rintro len ⟨hlength, hfit⟩
    rw [instructionLength_tableswitch hop] at hlength
    split_ifs at hlength with hcase
    cases hlength
    have hin : switchHeader code bci < code.length ∧ 0 < switchSize code bci := by
      rcases hcase with hcase | hcase
      · omega
      · exact hcase
    exact yields_of_switch overrun hswitch hin.1 hin.2 (by omega) (.inl hfit)

theorem agrees_lookupswitch (hsize : code.length < 2 ^ 16) (hop : u1At code bci = 171)
    (h : ¬ Misread overrun code bci) : Agrees overrun code bci := by
  have hswitch : isSwitch (u1At code bci) = true := isSwitch_iff.2 (.inr (.inl hop))
  obtain ⟨hsame, hheader⟩ := switchSize_lookupswitch code bci (by rw [hop]; rfl)
  have hpadding := padding_bounds bci
  refine ⟨?_, ?_⟩
  · intro hyields
    obtain ⟨hmeasured, hin, hmax⟩ := measuredLength_of_yields hswitch hyields
    obtain ⟨hpos, hfit⟩ := hyields
    rw [hmeasured] at hpos hfit ⊢
    have hnpairs : 0 ≤ jintAt code (alignedBcp bci + 4) := by
      by_contra hneg
      exact h (.negativeLookupswitch hop (by omega) hin)
    refine ⟨?_, hfit.resolve_right fun hover => h (.overflow hswitch hin hmax hover)⟩
    rw [instructionLength_lookupswitch hop, if_pos hnpairs]
  · rintro len ⟨hlength, hfit⟩
    rw [instructionLength_lookupswitch hop] at hlength
    split_ifs at hlength with hnpairs
    cases hlength
    have hin : switchHeader code bci < code.length := by
      by_contra hge
      exact h (.emptyLookupswitch hop (by omega) (by omega))
    exact yields_of_switch overrun hswitch hin (by omega) (by omega) (.inl hfit)

theorem agrees_wide (hsize : code.length < 2 ^ 16) (hlt : bci < code.length)
    (hop : u1At code bci = 196) : Agrees overrun code bci := by
  have hwide := measuredLength_wide overrun hop
  have hlength : instructionLength code bci =
      (wideFormatLength (u1At code (bci + 1))).map fun len : Nat => (len : Int) := by
    simp [instructionLength, hop]
  have hmax := measuredLength_lt overrun code bci
  refine ⟨?_, ?_⟩
  · rintro ⟨hpos, hfit⟩
    rw [hwide] at hpos hfit ⊢
    split_ifs at hpos hfit ⊢ with hend
    · omega
    · have hformat := wideFormatLength_eq_some.2 ⟨rfl, Int.natCast_pos.1 hpos⟩
      have hle : wideLengthFor (u1At code (bci + 1)) ≤ 6 := by
        unfold wideLengthFor
        split_ifs <;> decide
      refine ⟨?_, by omega⟩
      rw [hlength, hformat, Option.map_some]
  · rintro len ⟨hsome, hfit⟩
    rw [hlength] at hsome
    obtain ⟨l, hl, rfl⟩ := Option.map_eq_some_iff.1 hsome
    obtain ⟨hsame, hpos⟩ := wideFormatLength_eq_some.1 hl
    have hlong : 4 ≤ l := by
      unfold wideFormatLength at hl
      split_ifs at hl <;> cases hl <;> decide
    rw [Yields, hwide, if_neg (by omega), hsame]
    exact ⟨Int.natCast_pos.2 hpos, .inl hfit⟩

theorem agrees_fixed (hsize : code.length < 2 ^ 16) (hlt : bci < code.length)
    (hwide : u1At code bci ≠ 196) (hbreakpoint : u1At code bci ≠ 202)
    (hswitch : isSwitch (u1At code bci) = false) (h : ¬ Misread overrun code bci) :
    Agrees overrun code bci := by
  have hmeasured := measuredLength_fixed overrun hwide hbreakpoint hswitch
  have hmax := tableLength_lt overrun (u1At code bci)
  by_cases hop : u1At code bci < 202
  · have hnot : ¬ (u1At code bci = 170 ∨ u1At code bci = 171 ∨ u1At code bci = 196) := by
      rintro (hop | hop | hop)
      · rw [hop] at hswitch
        cases hswitch
      · rw [hop] at hswitch
        cases hswitch
      · exact hwide hop
    have hformat := formatLength_eq _ hop
    rw [if_neg hnot] at hformat
    have htable : tableLength overrun (u1At code bci) = lengthFor (u1At code bci) :=
      if_pos (by omega)
    have hlength : instructionLength code bci = some (measuredLength overrun code bci) := by
      rw [instructionLength_fixed hwide hswitch, hformat, hmeasured, htable, Option.map_some]
    have hpos := formatLength_pos hformat
    refine ⟨?_, ?_⟩
    · rintro ⟨-, hfit⟩
      refine ⟨hlength, ?_⟩
      rw [hmeasured] at hfit ⊢
      omega
    · rintro len ⟨hsome, hfit⟩
      rw [hlength] at hsome
      cases hsome
      refine ⟨?_, .inl hfit⟩
      rw [hmeasured]
      omega
  · refine ⟨?_, fun len hcomplete => absurd hcomplete (not_complete_of_lt (by omega) len)⟩
    rintro ⟨hpos, hfit⟩
    rw [hmeasured] at hpos hfit
    exact absurd (.vmBytecode (by omega) (by omega) (by omega)) h

theorem agrees_of_not_misread (hsize : code.length < 2 ^ 16) (hlt : bci < code.length)
    (h : ¬ Misread overrun code bci) : Agrees overrun code bci := by
  by_cases hwide : u1At code bci = 196
  · exact agrees_wide hsize hlt hwide
  by_cases hbreakpoint : u1At code bci = 202
  · exact absurd (.breakpoint hbreakpoint) h
  cases hswitch : isSwitch (u1At code bci) with
  | false => exact agrees_fixed hsize hlt hwide hbreakpoint hswitch h
  | true =>
    rcases isSwitch_iff.1 hswitch with hop | hop | hop
    · exact agrees_tableswitch hsize hop h
    · exact agrees_lookupswitch hsize hop h
    · refine ⟨?_, fun len hcomplete => absurd hcomplete (not_complete_of_lt (by omega) len)⟩
      intro hyields
      obtain ⟨hmeasured, hin, hmax⟩ := measuredLength_of_yields hswitch hyields
      obtain ⟨hpos, hfit⟩ := hyields
      rw [hmeasured] at hpos hfit
      rcases hfit with hfit | hover
      · exact absurd (.vmSwitch hop hin hpos hfit) h
      · exact absurd (.overflow hswitch hin hmax hover) h

theorem not_agrees_of_misread (hsize : code.length < 2 ^ 16) (hlt : bci < code.length)
    (h : Misread overrun code bci) : ¬ Agrees overrun code bci := by
  have hpadding := padding_bounds bci
  intro hagrees
  cases h with
  | vmBytecode hop hpos hfit =>
    have hmeasured : measuredLength overrun code bci = tableLength overrun (u1At code bci) :=
      if_pos hpos
    have hyields : Yields overrun code bci := by
      rw [Yields, hmeasured]
      omega
    exact not_complete_of_lt (by omega) _ (hagrees.complete hyields)
  | breakpoint hop =>
    have hyields : Yields overrun code bci := by
      rw [Yields, measuredLength_breakpoint hop]
      omega
    exact not_complete_of_lt (by omega) _ (hagrees.complete hyields)
  | vmSwitch hop hheader hpos hfit =>
    have hswitch : isSwitch (u1At code bci) = true := isSwitch_iff.2 (.inr (.inr hop))
    have hyields := yields_of_switch overrun hswitch hheader hpos (by omega)
      (.inl hfit)
    exact not_complete_of_lt (by omega) _ (hagrees.complete hyields)
  | emptyLookupswitch hop hnpairs hend =>
    have hswitch : isSwitch (u1At code bci) = true := isSwitch_iff.2 (.inr (.inl hop))
    obtain ⟨hsame, hheader⟩ :=
      switchSize_lookupswitch code bci (by rw [hop]; rfl)
    have hcomplete : Complete code bci (switchSize code bci) := by
      refine ⟨?_, by omega⟩
      rw [instructionLength_lookupswitch hop, if_pos (by omega)]
    obtain ⟨-, hin, -⟩ := measuredLength_of_yields hswitch (hagrees.yields _ hcomplete)
    omega
  | negativeLookupswitch hop hnpairs hheader =>
    have hswitch : isSwitch (u1At code bci) = true := isSwitch_iff.2 (.inr (.inl hop))
    obtain ⟨hsame, hend⟩ :=
      switchSize_lookupswitch code bci (by rw [hop]; rfl)
    have hyields := yields_of_switch overrun hswitch hheader (by omega) (by omega)
      (.inl (by omega))
    have hlength := (hagrees.complete hyields).1
    rw [instructionLength_lookupswitch hop, if_neg (by omega)] at hlength
    cases hlength
  | overflow hop hheader hmax hover =>
    have hyields := yields_of_switch overrun hop hheader (by omega) hmax
      (.inr hover)
    have hfit := (hagrees.complete hyields).2
    obtain ⟨hmeasured, -, -⟩ := measuredLength_of_yields hop hyields
    omega

end Comparison

/-! ## Runs of the stream -/

open RawBytecodeStream

/-- The streams that `raw_next` leads to from the start, as long as no code is illegal. -/
inductive StreamReached (overrun : Nat → UInt8) (code : Bytes) : RawBytecodeStream → Prop
  | start : StreamReached overrun code .start
  | next {s s' : RawBytecodeStream} {c : Nat} (hreached : StreamReached overrun code s)
      (hlast : s.nextBci < code.length) (hnext : rawNext overrun code s = some (some c, s')) :
      StreamReached overrun code s'

/-- The positions where the format has instructions start. -/
inductive Boundary (code : Bytes) : Nat → Prop
  | zero : Boundary code 0
  | next {bci len : Nat} (hboundary : Boundary code bci) (hlt : bci < code.length)
      (hcomplete : Complete code bci len) : Boundary code (bci + len)

/-- A bytecode is a complete instruction with its length, and what is no code is not complete. -/
def ExactAt (overrun : Nat → UInt8) (code : Bytes) (s : RawBytecodeStream) : Prop :=
  match rawNext overrun code s with
  | none => False
  | some (none, _) => ∀ len, ¬ Complete code s.nextBci.toNat len
  | some (some _, s') => Complete code s.nextBci.toNat (s'.nextBci - s.nextBci)

/-- Instructions side by side. -/
def Partitions (code : Bytes) : Int → List (Int × Int) → Int → Prop
  | start, [], stop => start = stop
  | start, piece :: pieces, stop =>
    piece.1 = start ∧ Complete code start.toNat (piece.2 - start) ∧
      Partitions code piece.2 pieces stop

/-- The stream reads the instructions of the format and nothing else: all of the code is divided
into them, or up to where there is none. -/
structure SplitsExactly (overrun : Nat → UInt8) (code : Bytes) : Prop where
  exactAt : ∀ s, StreamReached overrun code s → s.nextBci < code.length → ExactAt overrun code s
  partitions : ∃ pieces complete stop,
    scan overrun code code.length .start = some (pieces, complete) ∧
      Partitions code 0 pieces stop ∧
      if complete = true then stop = code.length else ∀ len, ¬ Complete code stop.toNat len

section Runs

variable {overrun : Nat → UInt8} {code : Bytes} {bci : Nat} {s : RawBytecodeStream}

theorem Complete.pos {len : Int} (h : Complete code bci len) : 0 < len := by
  have hpadding := padding_bounds bci
  obtain ⟨hlength, -⟩ := h
  by_cases hwide : u1At code bci = 196
  · simp only [instructionLength, hwide, if_true] at hlength
    obtain ⟨l, hl, rfl⟩ := Option.map_eq_some_iff.1 hlength
    exact Int.natCast_pos.2 (wideFormatLength_eq_some.1 hl).2
  by_cases htable : u1At code bci = 170
  · obtain ⟨hsame, -⟩ := switchSize_tableswitch code bci (by rw [htable]; rfl)
    rw [instructionLength_tableswitch htable] at hlength
    split_ifs at hlength with hcase
    cases hlength
    omega
  by_cases hlookup : u1At code bci = 171
  · obtain ⟨hsame, -⟩ := switchSize_lookupswitch code bci (by rw [hlookup]; rfl)
    rw [instructionLength_lookupswitch hlookup] at hlength
    split_ifs at hlength with hcase
    cases hlength
    omega
  simp only [instructionLength, hwide, htable, hlookup, if_false] at hlength
  obtain ⟨l, hl, rfl⟩ := Option.map_eq_some_iff.1 hlength
  exact Int.natCast_pos.2 (formatLength_pos hl)

theorem exactAt_of_agrees (hsize : code.length < 2 ^ 16) (hlt : bci < code.length)
    (hnext : s.nextBci = bci) (hagrees : Agrees overrun code bci) : ExactAt overrun code s := by
  unfold ExactAt
  by_cases hyields : Yields overrun code bci
  · obtain ⟨c, s', hrun, hs'⟩ := rawNext_code hsize hlt hnext rfl hyields.1 hyields.2
    have hcomplete := hagrees.complete hyields
    have hpos := hcomplete.pos
    have hfit := hcomplete.2
    rw [addInt_of_lt (by omega) (by omega)] at hs'
    rw [hrun]
    simp only [hs', hnext, Int.toNat_natCast]
    convert hcomplete using 1
    omega
  · have hfail : measuredLength overrun code bci ≤ 0 ∨
        (code.length < bci + measuredLength overrun code bci ∧
          bci + measuredLength overrun code bci < 2 ^ 31) := by
      unfold Yields at hyields
      omega
    obtain ⟨s', hrun⟩ := rawNext_illegal hsize hlt hnext rfl hfail
    rw [hrun]
    simp only [hnext, Int.toNat_natCast]
    exact fun len hcomplete => hyields (hagrees.yields len hcomplete)

theorem agrees_of_exactAt (hsize : code.length < 2 ^ 16) (hlt : bci < code.length)
    (hnext : s.nextBci = bci) (hexact : ExactAt overrun code s) : Agrees overrun code bci := by
  have hmax := measuredLength_lt overrun code bci
  unfold ExactAt at hexact
  refine ⟨?_, ?_⟩
  · intro hyields
    obtain ⟨c, s', hrun, hs'⟩ := rawNext_code hsize hlt hnext rfl hyields.1 hyields.2
    rw [hrun] at hexact
    simp only [hs', hnext, Int.toNat_natCast] at hexact
    by_cases hover : (2 : Int) ^ 31 ≤ bci + measuredLength overrun code bci
    · rw [addInt_of_ge hover (by omega)] at hexact
      have hpos := hexact.pos
      omega
    · have hpos := hyields.1
      rw [addInt_of_lt (by omega) (by omega)] at hexact
      convert hexact using 1
      omega
  · intro len hcomplete
    by_contra hyields
    have hfail : measuredLength overrun code bci ≤ 0 ∨
        (code.length < bci + measuredLength overrun code bci ∧
          bci + measuredLength overrun code bci < 2 ^ 31) := by
      unfold Yields at hyields
      omega
    obtain ⟨s', hrun⟩ := rawNext_illegal hsize hlt hnext rfl hfail
    rw [hrun] at hexact
    simp only [hnext, Int.toNat_natCast] at hexact
    exact hexact len hcomplete

/-- A boundary of the format is reached as long as the stream is exact. -/
theorem reached_of_boundary (hexact : ∀ s, StreamReached overrun code s →
    s.nextBci < code.length → ExactAt overrun code s) (hboundary : Boundary code bci) :
    ∃ s, StreamReached overrun code s ∧ s.nextBci = bci := by
  induction hboundary with
  | zero => exact ⟨.start, .start, rfl⟩
  | @next bci len hboundary hlt hcomplete ih =>
    obtain ⟨s, hreached, hnext⟩ := ih
    have hlast : s.nextBci < code.length := by omega
    have hs := hexact s hreached hlast
    unfold ExactAt at hs
    split at hs
    · exact hs.elim
    · rw [hnext, Int.toNat_natCast] at hs
      exact (hs len hcomplete).elim
    next c s' hrun =>
      rw [hnext, Int.toNat_natCast] at hs
      have hlen := hs.unique hcomplete
      refine ⟨s', .next hreached hlast hrun, ?_⟩
      omega

/-- One round of the stream from a boundary. -/
theorem boundary_next (hboundary : Boundary code bci) (hlt : bci < code.length)
    (hnext : s.nextBci = bci) (hexact : ExactAt overrun code s) {c : Nat} {s' : RawBytecodeStream}
    (hrun : rawNext overrun code s = some (some c, s')) :
    ∃ len : Nat, 0 < len ∧ Complete code bci len ∧ s'.nextBci = (bci + len : Nat) ∧
      Boundary code (bci + len) := by
  unfold ExactAt at hexact
  rw [hrun] at hexact
  simp only [hnext, Int.toNat_natCast] at hexact
  obtain ⟨len, hlen⟩ := Int.eq_ofNat_of_zero_le (Int.le_of_lt hexact.pos)
  rw [hlen] at hexact
  have hpos := hexact.pos
  exact ⟨len, by omega, hexact, by omega, hboundary.next hlt hexact⟩

theorem boundary_of_reached (hgood : ∀ bci, Boundary code bci → bci < code.length →
    Agrees overrun code bci) (hsize : code.length < 2 ^ 16)
    (hreached : StreamReached overrun code s) : ∃ bci, Boundary code bci ∧ s.nextBci = bci := by
  induction hreached with
  | start => exact ⟨0, .zero, rfl⟩
  | @next s s' c hreached hlast hrun ih =>
    obtain ⟨bci, hboundary, hnext⟩ := ih
    have hlt : bci < code.length := by omega
    have hexact := exactAt_of_agrees hsize hlt hnext (hgood bci hboundary hlt)
    obtain ⟨len, -, -, hs', hboundary'⟩ := boundary_next hboundary hlt hnext hexact hrun
    exact ⟨bci + len, hboundary', hs'⟩

/-- The rest of the code is divided when there is fuel for each of its bytes. -/
theorem scan_partitions (hgood : ∀ bci, Boundary code bci → bci < code.length →
    Agrees overrun code bci) (hsize : code.length < 2 ^ 16) {fuel : Nat}
    (hboundary : Boundary code bci) (hnext : s.nextBci = bci) (hle : bci ≤ code.length)
    (hfuel : code.length - bci ≤ fuel) :
    ∃ pieces complete stop, scan overrun code fuel s = some (pieces, complete) ∧
      Partitions code bci pieces stop ∧
      if complete = true then stop = code.length else ∀ len, ¬ Complete code stop.toNat len := by
  induction fuel generalizing s bci with
  | zero =>
    have hend : (code.length : Int) ≤ s.nextBci := by omega
    exact ⟨[], true, bci, if_pos hend, rfl, by simp; omega⟩
  | succ fuel ih =>
    by_cases hlt : bci < code.length
    · have hexact := exactAt_of_agrees hsize hlt hnext (hgood bci hboundary hlt)
      have hmore : ¬ (code.length : Int) ≤ s.nextBci := by omega
      rw [RawBytecodeStream.scan, if_neg hmore]
      split
      next hrun =>
        rw [ExactAt, hrun] at hexact
        exact hexact.elim
      next hrun =>
        rw [ExactAt, hrun, hnext] at hexact
        exact ⟨[], false, bci, rfl, rfl, hexact⟩
      next c s' hrun =>
        obtain ⟨len, hpos, hcomplete, hs', hboundary'⟩ :=
          boundary_next hboundary hlt hnext hexact hrun
        have hfit := hcomplete.2
        obtain ⟨pieces, complete, stop, hscan, hpieces, hstop⟩ :=
          ih hboundary' hs' (by omega) (by omega)
        refine ⟨(s.nextBci, s'.nextBci) :: pieces, complete, stop, ?_, ⟨hnext, ?_, ?_⟩, hstop⟩
        · rw [hscan, Option.map_some]
        · have hlen : s'.nextBci - bci = len := by omega
          rwa [Int.toNat_natCast, hlen]
        · rwa [← hs'] at hpieces
    · have hend : (code.length : Int) ≤ s.nextBci := by omega
      exact ⟨[], true, bci, by rw [RawBytecodeStream.scan, if_pos hend], rfl, by simp; omega⟩

/-- Code is split exactly if and only if none of its instructions starts where the stream and the
format differ. The size of code is stored in two bytes. -/
theorem splitsExactly_iff (hsize : code.length < 2 ^ 16) :
    SplitsExactly overrun code ↔
      ∀ bci, Boundary code bci → bci < code.length → ¬ Misread overrun code bci := by
  constructor
  · intro h bci hboundary hlt hmisread
    obtain ⟨s, hreached, hnext⟩ := reached_of_boundary h.exactAt hboundary
    have hexact := h.exactAt s hreached (by omega)
    exact not_agrees_of_misread hsize hlt hmisread (agrees_of_exactAt hsize hlt hnext hexact)
  · intro h
    have hgood : ∀ bci, Boundary code bci → bci < code.length → Agrees overrun code bci :=
      fun bci hboundary hlt => agrees_of_not_misread hsize hlt (h bci hboundary hlt)
    refine ⟨fun s hreached hlast => ?_, ?_⟩
    · obtain ⟨bci, hboundary, hnext⟩ := boundary_of_reached hgood hsize hreached
      have hlt : bci < code.length := by omega
      exact exactAt_of_agrees hsize hlt hnext (hgood bci hboundary hlt)
    · exact scan_partitions hgood hsize .zero rfl (Nat.zero_le _) (Nat.le_refl _)

end Runs

/-! ## Two methods -/

/-- wide iload, iconst_0, a tableswitch behind two bytes of padding and a lookupswitch behind three,
each with one target, and return. -/
def switches : Bytes :=
  [196, 21, 0, 1, 3,
    170, 0, 0, 0, 0, 0, 39, 0, 0, 0, 0, 0, 0, 0, 0, 0, 0, 0, 39,
    171, 0, 0, 0, 0, 0, 0, 20, 0, 0, 0, 1, 0, 0, 0, 7, 0, 0, 0, 20,
    177]

theorem boundary_switches {bci : Nat} (h : Boundary switches bci) :
    bci = 0 ∨ bci = 4 ∨ bci = 5 ∨ bci = 24 ∨ bci = 44 ∨ bci = 45 := by
  induction h with
  | zero => exact Or.inl rfl
  | @next bci len _ hlt hcomplete ih =>
    have hlength := hcomplete.1
    have hnext : ∀ {n : Int}, instructionLength switches bci = some n → (len : Int) = n :=
      fun hn => Option.some.inj (hlength.symm.trans hn)
    rcases ih with rfl | rfl | rfl | rfl | rfl | rfl
    · have hlen : (len : Int) = 4 := hnext (by decide)
      omega
    · have hlen : (len : Int) = 1 := hnext (by decide)
      omega
    · have hlen : (len : Int) = 19 := hnext (by decide)
      omega
    · have hlen : (len : Int) = 20 := hnext (by decide)
      omega
    · have hlen : (len : Int) = 1 := hnext (by decide)
      omega
    · exact absurd hlt (by decide)

theorem splitsExactly_iff_switches : SplitsExactly (fun _ => 0) switches := by
  refine (splitsExactly_iff (by decide)).2 fun bci hboundary hlt hmisread => ?_
  rcases boundary_switches hboundary with rfl | rfl | rfl | rfl | rfl | rfl
  case inr.inr.inr.inr.inr => exact absurd hlt (by decide)
  all_goals
    cases hmisread with
    | vmBytecode hop => exact absurd hop (by decide)
    | breakpoint hop => exact absurd hop (by decide)
    | vmSwitch hop => exact absurd hop (by decide)
    | emptyLookupswitch hop hnpairs =>
      first | exact absurd hop (by decide) | exact absurd hnpairs (by decide)
    | negativeLookupswitch hop hnpairs =>
      first | exact absurd hop (by decide) | exact absurd hnpairs (by decide)
    | overflow hop _ _ hover =>
      first | exact absurd hop (by decide) | exact absurd hover (by decide)

/-- A lookupswitch without pairs, with three bytes of padding, is all of the code. -/
theorem not_splitsExactly_emptyLookupswitch :
    ¬ ∀ (overrun : Nat → UInt8) (code : Bytes), code.length < 2 ^ 16 →
      SplitsExactly overrun code := by
  intro hall
  have hsplit := hall (fun _ => 0) [171, 0, 0, 0, 0, 0, 0, 0, 0, 0, 0, 0] (by decide)
  have hexact := hsplit.exactAt .start .start (by decide)
  have hrun : rawNext (fun _ => 0) [171, 0, 0, 0, 0, 0, 0, 0, 0, 0, 0, 0] .start =
      some (none, .start) := by decide
  rw [ExactAt, hrun] at hexact
  exact hexact 12 ⟨by decide, by decide⟩

end HotSpot
