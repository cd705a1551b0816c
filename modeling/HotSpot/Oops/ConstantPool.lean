import HotSpot.Interpreter.Bytecodes

/-! # Constant pools

The tagged entries of a constant pool, and those of the cache that a linked class has.
-/

namespace HotSpot

open ClassFileParser

/-- The bytes of a `symbolOop`. -/
abbrev Symbol := Bytes

inductive ConstantTag where
  | klass | unresolvedKlass | unresolvedKlassInError | string | unresolvedString | utf8
  | int | float | long | double | nameAndType | field | method | interfaceMethod | invalid
  deriving DecidableEq, Repr

/-- An entry. A resolved class is known by its name, a resolved string by its UTF-8 form, and a
floating point number by its bits. -/
inductive CpEntry where
  | klass (name : Symbol)
  | unresolvedKlass (name : Symbol)
  | unresolvedKlassInError (name : Symbol)
  | string (utf8 : Bytes)
  | unresolvedString (symbol : Symbol)
  | utf8 (symbol : Symbol)
  | int (value : BitVec 32)
  | float (bits : BitVec 32)
  | long (value : BitVec 64)
  | double (bits : BitVec 64)
  | nameAndType (nameIndex signatureIndex : Nat)
  | field (klassIndex nameAndTypeIndex : Nat)
  | method (klassIndex nameAndTypeIndex : Nat)
  | interfaceMethod (klassIndex nameAndTypeIndex : Nat)
  | invalid
  deriving DecidableEq, Repr

def CpEntry.tag : CpEntry → ConstantTag
  | klass _ => .klass
  | unresolvedKlass _ => .unresolvedKlass
  | unresolvedKlassInError _ => .unresolvedKlassInError
  | string _ => .string
  | unresolvedString _ => .unresolvedString
  | utf8 _ => .utf8
  | int _ => .int
  | float _ => .float
  | long _ => .long
  | double _ => .double
  | nameAndType _ _ => .nameAndType
  | field _ _ => .field
  | method _ _ => .method
  | interfaceMethod _ _ => .interfaceMethod
  | invalid => .invalid

/-- An entry of the constant pool cache. -/
inductive CpCacheEntry where
  | main (constantPoolIndex : Nat)
  | secondary (mainEntryIndex : Nat)
  deriving DecidableEq, Repr

/-- The cache is there when the class is linked: the operands of its bytecodes are then indices
into the cache. -/
structure ConstantPool where
  entries : List CpEntry
  cache : Option (List CpCacheEntry)
  deriving DecidableEq, Repr

end HotSpot
