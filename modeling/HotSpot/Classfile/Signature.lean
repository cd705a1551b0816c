import Mathlib.Tactic.Common

/-! # Signatures of fields and methods

The checks of descriptors in `classFileParser.cpp`. A pointer into a signature is the
list of the bytes from there up to the terminating zero.
-/

namespace HotSpot.ClassFileParser

abbrev Bytes := List UInt8

/-! ## Letters -/

-- `JVM_SIGNATURE_*` of `jvm.h` and the other letters that the checks know.
namespace Letter

def array : UInt8 := 0x5B -- [
def byte : UInt8 := 0x42 -- B
def char : UInt8 := 0x43 -- C
def cls : UInt8 := 0x4C -- L
def endClass : UInt8 := 0x3B -- ;
def float : UInt8 := 0x46 -- F
def double : UInt8 := 0x44 -- D
def func : UInt8 := 0x28 -- (
def endFunc : UInt8 := 0x29 -- )
def int : UInt8 := 0x49 -- I
def long : UInt8 := 0x4A -- J
def short : UInt8 := 0x53 -- S
def void : UInt8 := 0x56 -- V
def boolean : UInt8 := 0x5A -- Z
def dot : UInt8 := 0x2E -- .
def slash : UInt8 := 0x2F -- /
def less : UInt8 := 0x3C -- <

end Letter

/-- The byte that a pointer points to, or the terminating zero. -/
def deref (p : Bytes) : UInt8 := p.headD 0

/-! ## Characters -/

namespace UTF8

/-- `UTF8::next`: the character at the pointer and the number of its bytes. -/
def next (str : Bytes) : Nat × Nat :=
  let ch := (str.getD 0 0).toNat
  let ch2 := (str.getD 1 0).toNat
  let ch3 := (str.getD 2 0).toNat
  let bad := (ch, 1) -- make progress somehow
  match ch >>> 4 with
  | 0x8 | 0x9 | 0xA | 0xB | 0xF => bad
  | 0xC | 0xD =>
    if ch2 &&& 0xC0 = 0x80 then (((ch &&& 0x1F) <<< 6) + (ch2 &&& 0x3F), 2) else bad
  | 0xE =>
    if ch2 &&& 0xC0 = 0x80 ∧ ch3 &&& 0xC0 = 0x80 then
      (((((ch &&& 0x0F) <<< 6) + (ch2 &&& 0x3F)) <<< 6) + (ch3 &&& 0x3F), 3)
    else bad
  | _ => (ch, 1)

def isSupplementaryCharacter (str : Bytes) : Bool :=
  let byte i := (str.getD i 0).toNat
  byte 0 = 0xED ∧ byte 1 &&& 0xF0 = 0xA0 ∧ byte 2 &&& 0xC0 = 0x80 ∧
    byte 3 = 0xED ∧ byte 4 &&& 0xF0 = 0xB0 ∧ byte 5 &&& 0xC0 = 0x80

def getSupplementaryCharacter (str : Bytes) : Nat :=
  let byte i := (str.getD i 0).toNat
  0x10000 + ((byte 1 &&& 0x0F) <<< 16) + ((byte 2 &&& 0x3F) <<< 10) +
    ((byte 4 &&& 0x0F) <<< 6) + (byte 5 &&& 0x3F)

def nextCharacter (str : Bytes) : Nat × Nat :=
  if isSupplementaryCharacter str then (getSupplementaryCharacter str, 6) else next str

theorem next_pos (str : Bytes) : 0 < (next str).2 := by
  unfold next
  dsimp only
  split <;> (try split) <;> simp

theorem nextCharacter_pos (str : Bytes) : 0 < (nextCharacter str).2 := by
  unfold nextCharacter
  split
  · exact Nat.zero_lt_succ 5
  · exact next_pos str

end UTF8

end HotSpot.ClassFileParser

namespace HotSpot

/-- What the checks read of the parser. The methods of `java.lang.Character` are Java
code; they may throw. -/
structure ClassFileParser where
  majorVersion : Nat
  needVerify : Bool
  className : ClassFileParser.Bytes
  isJavaIdentifierStart : Nat → Option Bool
  isJavaIdentifierPart : Nat → Option Bool

namespace ClassFileParser

/-- The `ClassFormatError` that a check throws, with the arguments of its text. -/
inductive FormatError where
  /-- Class name contains illegal character '.' in descriptor in class file %s -/
  | illegalCharacter (className : Bytes)
  /-- Array type descriptor has more than 255 dimensions in class file %s -/
  | tooManyDimensions (className : Bytes)
  /-- Method "%s" in class %s has illegal signature "%s" -/
  | illegalMethodSignature (name className p : Bytes)
  /-- Field "%s" in class %s has illegal signature "%s" -/
  | illegalFieldSignature (name className bytes : Bytes)
  /-- Illegal UTF8 string in constant pool in class file %s -/
  | illegalUtf8 (className : Bytes)
  deriving DecidableEq, Repr

def java15Version : Nat := 49

variable (parser : ClassFileParser)

/-! ## Scanning -/

/-- Whether a character may follow in a field name; a pending exception counts as none. -/
def isNameCharacter (notFirst : Bool) (ch : Nat) : Option Bool := do
  if ← parser.isJavaIdentifierStart ch then return true
  if notFirst then parser.isJavaIdentifierPart ch else return false

/-- The loop of `skip_over_field_name`, with `length` bytes ahead. -/
def skipOverFieldNameLoop (slashOk : Bool) (p : Bytes) (length : Nat)
    (lastIsSlash notFirst : Bool) : Option Bytes :=
  let stop := if notFirst then some p else none
  if length = 0 then stop
  else
    let ch := (deref p).toNat
    if ch < 128 then
      if (0x61 ≤ ch ∧ ch ≤ 0x7A) ∨ (0x41 ≤ ch ∧ ch ≤ 0x5A) ∨ ch = 0x5F ∨ ch = 0x24 ∨
          (notFirst ∧ 0x30 ≤ ch ∧ ch ≤ 0x39) then
        skipOverFieldNameLoop slashOk (p.drop 1) (length - 1) false true
      else if slashOk ∧ deref p = Letter.slash then
        if lastIsSlash then none -- Don't permit consecutive slashes
        else skipOverFieldNameLoop slashOk (p.drop 1) (length - 1) true true
      else stop
    else
      have := UTF8.nextCharacter_pos p
      let bytes := (UTF8.nextCharacter p).2
      match parser.isNameCharacter notFirst (UTF8.nextCharacter p).1 with
      | none => none
      | some true => skipOverFieldNameLoop slashOk (p.drop bytes) (length - bytes) false true
      | some false => stop
termination_by length

/-- `skip_over_field_name`. -/
def skipOverFieldName (name : Bytes) (slashOk : Bool) (length : Nat) : Option Bytes :=
  parser.skipOverFieldNameLoop slashOk name length false false

/-- The loop of `skip_over_field_signature` over a class name of a newer class file. -/
def skipOverClassName : Nat → Bytes → Except FormatError (Option Bytes)
  | 0, signature =>
    .ok (if deref signature = Letter.endClass then some (signature.drop 1) else none)
  | length + 1, signature =>
    if deref signature = Letter.endClass then .ok (some (signature.drop 1))
    else if deref signature = Letter.dot then .error (.illegalCharacter parser.className)
    else skipOverClassName length (signature.drop 1)

def isPrimitive (letter : UInt8) : Bool :=
  letter = Letter.boolean ∨ letter = Letter.byte ∨ letter = Letter.char ∨ letter = Letter.short ∨
    letter = Letter.int ∨ letter = Letter.float ∨ letter = Letter.long ∨ letter = Letter.double

/-- The loop of `skip_over_field_signature`. -/
def skipOverFieldSignatureLoop :
    Nat → Nat → Bytes → Bool → Except FormatError (Option Bytes)
  | 0, _, _, _ => .ok none
  | length + 1, arrayDim, signature, voidOk =>
    let letter := deref signature
    if letter = Letter.void then .ok (if voidOk then some (signature.drop 1) else none)
    else if isPrimitive letter then .ok (some (signature.drop 1))
    else if letter = Letter.cls then
      if parser.majorVersion < java15Version then
        match parser.skipOverFieldName (signature.drop 1) true length with
        | some p =>
          -- The next character better be a semicolon
          .ok (if 1 < signature.length - p.length ∧ deref p = Letter.endClass then
            some (p.drop 1) else none)
        | none => .ok none
      -- For class version > 48, any unicode is allowed in class name.
      else parser.skipOverClassName length (signature.drop 1)
    else if letter = Letter.array then
      -- array descriptor is valid only if it represents 255 or fewer dimensions.
      if arrayDim + 1 > 255 then .error (.tooManyDimensions parser.className)
      else skipOverFieldSignatureLoop length (arrayDim + 1) (signature.drop 1) false
    else .ok none

/-- `skip_over_field_signature`: just past the longest part of the string that could be taken
as a field signature. -/
def skipOverFieldSignature (signature : Bytes) (voidOk : Bool) (length : Nat) :
    Except FormatError (Option Bytes) :=
  parser.skipOverFieldSignatureLoop length 0 signature voidOk

/-- A skipped name does not go back. -/
theorem skipOverFieldNameLoop_length {slashOk : Bool} {p q : Bytes} {length : Nat}
    {lastIsSlash notFirst : Bool}
    (h : parser.skipOverFieldNameLoop slashOk p length lastIsSlash notFirst = some q) :
    q.length ≤ p.length := by
  fun_induction skipOverFieldNameLoop parser slashOk p length lastIsSlash notFirst <;>
    grind

/-- The terminating zero is no letter. -/
theorem length_drop_lt {p : Bytes} (h : deref p ≠ 0) : (p.drop 1).length < p.length := by
  cases p with
  | nil => exact absurd rfl h
  | cons => simp

theorem skipOverClassName_length {length : Nat} {p q : Bytes}
    (h : parser.skipOverClassName length p = .ok (some q)) : q.length < p.length := by
  induction length generalizing p with
  | zero =>
    unfold skipOverClassName at h
    split at h
    next heq =>
      cases h
      exact length_drop_lt (by rw [heq]; decide)
    next => cases h
  | succ length ih =>
    unfold skipOverClassName at h
    split at h
    next heq =>
      cases h
      exact length_drop_lt (by rw [heq]; decide)
    next =>
      split at h
      next => cases h
      next =>
        have := ih h
        simp only [List.length_drop] at this
        omega

/-- A signature takes at least one byte. -/
theorem skipOverFieldSignatureLoop_length {length arrayDim : Nat} {p q : Bytes} {voidOk : Bool}
    (h : parser.skipOverFieldSignatureLoop length arrayDim p voidOk = .ok (some q)) :
    q.length < p.length := by
  induction length generalizing arrayDim p voidOk with
  | zero => cases h
  | succ length ih =>
    unfold skipOverFieldSignatureLoop at h
    dsimp only at h
    split at h
    next heq =>
      split at h <;> cases h
      exact length_drop_lt (by rw [heq]; decide)
    next =>
      split at h
      next hprimitive =>
        cases h
        apply length_drop_lt
        intro hzero
        rw [hzero] at hprimitive
        exact absurd hprimitive (by decide)
      next =>
        split at h
        next heq =>
          have hdrop := length_drop_lt (p := p) (by rw [heq]; decide)
          split at h
          next =>
            split at h
            next p' hname =>
              have hle := parser.skipOverFieldNameLoop_length hname
              split at h <;> cases h
              simp only [List.length_drop] at hle ⊢
              omega
            next => cases h
          next => exact Nat.lt_trans (parser.skipOverClassName_length h) hdrop
        next =>
          split at h
          next =>
            split at h
            next => cases h
            next =>
              have := ih h
              simp only [List.length_drop] at this
              omega
          next => cases h

/-! ## Checks -/

/-- The arguments of a method: the number of their slots, and the rest with its length. -/
def skipArguments (p : Bytes) (length argsSize : Nat) : Except FormatError (Nat × Bytes × Nat) :=
  match hnext : parser.skipOverFieldSignature p false length with
  | .error e => .error e
  | .ok none => .ok (argsSize, p, length)
  | .ok (some nextp) =>
    have := parser.skipOverFieldSignatureLoop_length hnext
    if length = 0 then .ok (argsSize, p, length)
    else
      let argsSize := argsSize + 1
      let argsSize :=
        if deref p = Letter.long ∨ deref p = Letter.double then argsSize + 1 else argsSize
      skipArguments nextp (length - (p.length - nextp.length)) argsSize
termination_by p.length

/-- `verify_legal_method_signature`: the number of the slots of the arguments. -/
def verifyLegalMethodSignature (name signature : Bytes) : Except FormatError Int :=
  -- make sure caller's args_size will be less than 0 even for non-static method
  if !parser.needVerify then .ok (-2)
  else
    let illegal p := .error (.illegalMethodSignature name parser.className p)
    -- The first character must be a '('
    if signature.length = 0 then illegal signature
    else if deref signature ≠ Letter.func then illegal (signature.drop 1)
    else
      match parser.skipArguments (signature.drop 1) (signature.length - 1) 0 with
      | .error e => .error e
      | .ok (argsSize, p, length) =>
        -- The first non-signature thing better be a ')'
        if length = 0 then illegal p
        else if deref p ≠ Letter.endFunc then illegal (p.drop 1)
        else if 0 < name.length ∧ deref name = Letter.less then
          -- All internal methods must return void
          if length - 1 = 1 ∧ deref (p.drop 1) = Letter.void then .ok argsSize
          else illegal (p.drop 1)
        else
          -- Now we better just have a return value
          match parser.skipOverFieldSignature (p.drop 1) true (length - 1) with
          | .error e => .error e
          | .ok none => illegal (p.drop 1)
          | .ok (some nextp) =>
            if length - 1 = (p.drop 1).length - nextp.length then .ok argsSize
            else illegal (p.drop 1)

end ClassFileParser

end HotSpot
