import Mathlib.Data.Finmap

/-! # Dictionaries

A hash table of buckets, each an array of key-value pairs that grows as needed. The table
is doubled when it has more pairs than buckets.

An operation that reads or writes beyond what was allocated for a bucket, or that reads a
pair which was never written, is `none`.
-/

namespace HotSpot

/-- The functions of a dictionary. Keys are equal when the comparison gives 0. -/
structure KeyOps (K : Type) where
  hash : K → Nat
  cmp : K → K → Int
  refl : ∀ a, cmp a a = 0
  symm : ∀ a b, cmp a b = 0 → cmp b a = 0
  trans : ∀ a b c, cmp a b = 0 → cmp b c = 0 → cmp a c = 0
  hash_eq : ∀ a b, cmp a b = 0 → hash a = hash b

namespace KeyOps

variable {K : Type} (ops : KeyOps K)

def setoid : Setoid K where
  r a b := ops.cmp a b = 0
  iseqv := ⟨ops.refl, fun h => ops.symm _ _ h, fun h h' => ops.trans _ _ _ h h'⟩

/-- The keys up to equality. -/
abbrev Key : Type := Quotient ops.setoid

instance : DecidableEq ops.Key :=
  @Quotient.decidableEq K ops.setoid fun a b => inferInstanceAs (Decidable (ops.cmp a b = 0))

def key (k : K) : ops.Key := Quotient.mk ops.setoid k

theorem key_eq_iff {a b : K} : ops.key a = ops.key b ↔ ops.cmp a b = 0 := Quotient.eq

end KeyOps

variable {K V : Type}

/-! ## Buckets -/

namespace Dict

/-- `_keyvals`, if it is not `NULL`, has the pairs that are allocated. -/
structure Bucket (K V : Type) where
  cnt : Nat
  max : Nat
  keyvals : Option (List (Option (K × V)))

namespace Bucket

/-- What `memset` makes. -/
def zero : Bucket K V := ⟨0, 0, none⟩

def read (b : Bucket K V) (j : Nat) : Option (K × V) := do
  let cells ← b.keyvals
  let cell ← cells[j]?
  cell

def write (b : Bucket K V) (j : Nat) (keyval : K × V) : Option (Bucket K V) := do
  let cells ← b.keyvals
  if j < cells.length then return { b with keyvals := some (cells.set j (some keyval)) } else none

/-- The loop that looks for a key, with the pairs left: where it is, and the pair. -/
def find (ops : KeyOps K) (key : K) (b : Bucket K V) :
    Nat → Nat → Option (Option (Nat × K × V))
  | 0, _ => some none
  | left + 1, j => do
      let keyval ← b.read j
      if ops.cmp key keyval.1 = 0 then return some (j, keyval) else find ops key b left (j + 1)

/-- Remove a pair by putting the last one in its place. -/
def remove (b : Bucket K V) (j : Nat) : Option (Bucket K V) := do
  let b := { b with cnt := b.cnt - 1 }
  b.write j (← b.read b.cnt)

/-- Make room for one more pair. -/
def grow (b : Bucket K V) : Bucket K V :=
  if b.cnt = b.max then
    match b.keyvals with
    | none => { b with max := 2, keyvals := some (List.replicate 2 none) }
    | some cells =>
      { b with
        max := b.max * 2
        keyvals := some (cells ++ List.replicate (b.max * 2 - cells.length) none) }
  else b

def append (b : Bucket K V) (keyval : K × V) : Option (Bucket K V) := do
  let b ← b.write b.cnt keyval
  return { b with cnt := b.cnt + 1 }

/-- A bucket of its own for a copy. -/
def copy (b : Bucket K V) : Option (Bucket K V) :=
  match b.keyvals with
  | none => some b
  | some cells =>
    if b.cnt ≤ b.max then
      some { b with keyvals := some (cells.take b.cnt ++ List.replicate (b.max - b.cnt) none) }
    else none

/-- The loop that trims `_max` down to the size of a new bucket. -/
def trim (cnt : Nat) : Nat → Nat → Nat
  | 0, j => j
  | fuel + 1, j => if cnt < j then trim cnt fuel (j / 2) else j

/-- A new bucket for the pairs of another that move. -/
def alloc (b nb : Bucket K V) : Bucket K V :=
  let j := trim b.cnt b.max b.max
  let j := if j = 0 then 1 else j
  { nb with max := j * 2, keyvals := some (List.replicate (j * 2) none) }

/-- The loop over the pairs of a bucket, with the pairs left. -/
def rehash (ops : KeyOps K) (size i : Nat) :
    Nat → Nat → Bucket K V → Bucket K V → Option (Bucket K V × Bucket K V)
  | 0, _, b, nb => some (b, nb)
  | left + 1, j, b, nb => do
      let keyval ← b.read j
      if ops.hash keyval.1 &&& (size - 1) ≠ i then do
        let nb ← nb.append keyval
        let b ← b.remove j
        -- Hash compacted element also
        rehash ops size i left j b nb
      else rehash ops size i left (j + 1) b nb

end Bucket

end Dict

/-! ## Dictionaries -/

/-- The counts are `Nat`: as a `uint`, a size wraps when it is doubled from 2 ^ 31, as it is for
more pairs than that or when a larger one is asked for. -/
structure Dict (K V : Type) where
  size : Nat
  cnt : Nat
  bin : Nat → Dict.Bucket K V

namespace Dict

/-- The number of buckets for a size that is asked for. -/
def initialSize (size : Nat) : Nat → Nat → Nat
  | 0, i => i
  | fuel + 1, i => if i < size then initialSize size fuel (i * 2) else i

def new (size : Nat) : Dict K V := ⟨initialSize size size 16, 0, fun _ => .zero⟩

def setBin (d : Dict K V) (i : Nat) (b : Bucket K V) : Dict K V :=
  { d with bin := Function.update d.bin i b }

variable (ops : KeyOps K)

def binOf (d : Dict K V) (key : K) : Nat := ops.hash key &&& (d.size - 1)

/-- `Dict::Clear` -/
def clear (d : Dict K V) : Dict K V :=
  { d with cnt := 0, bin := fun i => { d.bin i with cnt := 0 } }

/-- Split an old bucket of a table that was doubled. -/
def split (oldsize : Nat) (d : Dict K V) (i : Nat) : Option (Dict K V) :=
  if (d.bin i).keyvals.isNone then some d
  else do
    let nb := (d.bin i).alloc (d.bin (i + oldsize))
    let (b, nb) ← (d.bin i).rehash ops d.size i (d.bin i).cnt 0 nb
    return (d.setBin i b).setBin (i + oldsize) nb

/-- `Dict::doubhash` -/
def doubhash (d : Dict K V) : Option (Dict K V) :=
  let oldsize := d.size
  let d := { d with
    size := oldsize * 2
    bin := fun i => if i < oldsize then d.bin i else .zero }
  (List.range oldsize).foldlM (split ops oldsize) d

/-- `Dict(const Dict&)` -/
def copy (d : Dict K V) : Option (Dict K V) :=
  (List.range d.size).foldlM (fun d i => (d.bin i).copy.map (d.setBin i)) d

/-- What `Insert` does where the table may have become full. -/
def growIfFull (d : Dict K V) : Option (Dict K V) :=
  if d.cnt > d.size then d.doubhash ops else some d

/-- `Dict::Insert`, with the prior value. -/
def insert (d : Dict K V) (key : K) (val : V) (replace : Bool) :
    Option (Option V × Dict K V) := do
  let i := d.binOf ops key
  match ← (d.bin i).find ops key (d.bin i).cnt 0 with
  | some (j, keyval) =>
    if !replace then return (some keyval.2, d)
    else do
      let b ← (d.bin i).write j (key, val)
      return (some keyval.2, d.setBin i b)
  | none => do
      let d ← { d with cnt := d.cnt + 1 }.growIfFull ops
      let i := d.binOf ops key
      let b ← (d.bin i).grow.append (key, val)
      return (none, d.setBin i b)

/-- `Dict::Delete` -/
def delete (d : Dict K V) (key : K) : Option (Option V × Dict K V) := do
  let i := d.binOf ops key
  match ← (d.bin i).find ops key (d.bin i).cnt 0 with
  | some (j, keyval) => do
      let b ← (d.bin i).remove j
      return (some keyval.2, { d.setBin i b with cnt := d.cnt - 1 })
  | none => return (none, d)

/-- `Dict::operator []` -/
def get (d : Dict K V) (key : K) : Option (Option V) := do
  let i := d.binOf ops key
  let found ← (d.bin i).find ops key (d.bin i).cnt 0
  return found.map fun (_, keyval) => keyval.2

end Dict

/-! ## Iteration -/

/-- `_i` starts before the first bin; the key and the value are `NULL` at the end. -/
structure DictI (K V : Type) where
  i : Int
  j : Nat
  keyval : Option (K × V)

namespace DictI

variable (d : Dict K V)

/-- The scan for a bucket that is not empty, with the buckets left. -/
def scan : Nat → Int → Nat → Option (DictI K V)
  | 0, i, j => some ⟨i + 1, j, none⟩
  | left + 1, i, _ =>
    let i := i + 1
    let j := (d.bin i.toNat).cnt
    if j = 0 then scan left i j
    else do
      let keyval ← (d.bin i.toNat).read (j - 1)
      return ⟨i, j - 1, some keyval⟩

/-- `DictI::operator ++` -/
def next (it : DictI K V) : Option (DictI K V) :=
  if it.j ≠ 0 then do
    let keyval ← (d.bin it.i.toNat).read (it.j - 1)
    return { it with j := it.j - 1, keyval := some keyval }
  else scan d (d.size - (it.i + 1).toNat) it.i (2 ^ 32 - 1)

/-- `DictI::reset` -/
def reset : Option (DictI K V) := next d ⟨-1, 0, none⟩

def test (it : DictI K V) : Bool := it.i < (d.size : Int)

/-- The pairs that `for( ; i.test(); ++i )` comes across. -/
def enumerate : Nat → DictI K V → Option (List (K × V))
  | 0, _ => none
  | fuel + 1, it =>
    if it.test d then do
      let keyval ← it.keyval
      let it ← it.next d
      return keyval :: (← enumerate fuel it)
    else some []

end DictI

/-! ## Runs -/

namespace Dict

/-- Copy construction goes on with the copy. -/
inductive Operation (K V : Type) where
  | insert (key : K) (val : V) (replace : Bool)
  | delete (key : K)
  | clear
  | copy

/-- One operation, with the prior value that it returns. -/
def perform (ops : KeyOps K) (d : Dict K V) : Operation K V → Option (Option V × Dict K V)
  | .insert key val replace => d.insert ops key val replace
  | .delete key => d.delete ops key
  | .clear => some (none, d.clear)
  | .copy => d.copy.map fun d => (none, d)

def run (ops : KeyOps K) (d : Dict K V) :
    List (Operation K V) → Option (List (Option V) × Dict K V)
  | [] => some ([], d)
  | op :: l => do
      let (prior, d) ← d.perform ops op
      let (priors, d) ← d.run ops l
      return (prior :: priors, d)

/-! ## The finite map -/

/-- The pairs that a dictionary stands for. -/
abbrev KeyMap (ops : KeyOps K) (V : Type) : Type := Finmap fun _ : ops.Key => V

namespace KeyMap

variable {ops : KeyOps K}

def perform (m : KeyMap ops V) : Operation K V → Option V × KeyMap ops V
  | .insert key val replace =>
    (m.lookup (ops.key key),
      if replace ∨ m.lookup (ops.key key) = none then Finmap.insert (ops.key key) val m else m)
  | .delete key => (m.lookup (ops.key key), m.erase (ops.key key))
  | .clear => (none, ∅)
  | .copy => (none, m)

def run (m : KeyMap ops V) : List (Operation K V) → List (Option V) × KeyMap ops V
  | [] => ([], m)
  | op :: l =>
    let (prior, m) := perform m op
    let (priors, m) := run m l
    (prior :: priors, m)

end KeyMap

end Dict

end HotSpot
