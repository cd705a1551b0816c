import HotSpot.Lib.Simulation
import HotSpot.Prims.IndexMap
import HotSpot.Oops.ConstantPool
import Mathlib

/-! # Merging constant pools

The constant pool of a redefined class: the entries of the old pool at their indices, then
what the new pool has and the old one does not, with a map from the indices of the new pool to
those of the merged one.
-/

namespace HotSpot

open ClassFileParser

/-- `==` of floating point numbers by their bits: a NaN, which has a greater magnitude than
infinity, is equal to nothing, and the two zeros are equal. -/
def floatingEq {w : Nat} (infinity : Nat) (a b : BitVec w) : Bool :=
  let magnitude := fun x : BitVec w => x.toNat % 2 ^ (w - 1)
  magnitude a ≤ infinity && magnitude b ≤ infinity &&
    (a = b || magnitude a = 0 && magnitude b = 0)

def jfloatEq (a b : BitVec 32) : Bool := floatingEq 0x7f800000 a b

def jdoubleEq (a b : BitVec 64) : Bool := floatingEq 0x7ff0000000000000 a b

/-- `strcmp(a, b) == 0`: a zero byte ends a string. -/
def strcmpEq (a b : Bytes) : Bool := a.takeWhile (· ≠ 0) = b.takeWhile (· ≠ 0)

namespace PoolMerge

/-- Why a merge stops. Entries that refer to each other in a circle are `unfinished`. -/
inductive Stop
  | outOfBounds
  | shouldNotReachHere
  | guarantee
  | unfinished
  deriving DecidableEq, Repr

abbrev Entries : Type := List CpEntry

def entryAt (entries : Entries) (i : Nat) : CpEntry := entries.getD i .invalid

theorem entryAt_eq {entries : Entries} {i : Nat} (hi : i < entries.length) :
    entryAt entries i = entries[i] := List.getD_eq_getElem _ _ hi

theorem entryAt_beyond {entries : Entries} {i : Nat} (hi : entries.length ≤ i) :
    entryAt entries i = .invalid := List.getD_eq_default _ _ hi

theorem entryAt_append {entries new : Entries} {i : Nat} (hi : i < entries.length) :
    entryAt (entries ++ new) i = entryAt entries i := List.getD_append _ _ _ _ hi

/-! ## Comparing entries -/

/-- The two entries that an entry refers to: a name and a signature, or a class and a name and
type. -/
def indices : CpEntry → Option (Nat × Nat)
  | .nameAndType name signature => some (name, signature)
  | .field klass nameAndType | .method klass nameAndType | .interfaceMethod klass nameAndType =>
    some (klass, nameAndType)
  | _ => none

/-- Entries that refer to no others. A resolved class or string differs from one that is not,
and a class in error is one that is not resolved. -/
def compareDirect : CpEntry → CpEntry → Except Stop Bool
  | .klass k1, .klass k2 => .ok (k1 == k2)
  | .unresolvedKlass k1, .unresolvedKlass k2
  | .unresolvedKlass k1, .unresolvedKlassInError k2
  | .unresolvedKlassInError k1, .unresolvedKlass k2
  | .unresolvedKlassInError k1, .unresolvedKlassInError k2 => .ok (k1 == k2)
  | .double d1, .double d2 => .ok (jdoubleEq d1 d2)
  | .float f1, .float f2 => .ok (jfloatEq f1 f2)
  | .int i1, .int i2 => .ok (i1 == i2)
  | .long l1, .long l2 => .ok (l1 == l2)
  | .string s1, .string s2 => .ok (s1 == s2)
  | .unresolvedString s1, .unresolvedString s2 => .ok (s1 == s2)
  | .utf8 s1, .utf8 s2 => .ok (s1 == s2)
  | .invalid, .invalid => .error .shouldNotReachHere
  | _, _ => .ok false

/-- Compare the entry of a pool at one index to the entry of another at another. -/
def compareEntryTo : Nat → Entries → Nat → Entries → Nat → Except Stop Bool
  | 0, _, _, _, _ => .error .unfinished
  | fuel + 1, cp, index1, cp2, index2 =>
    match indices (entryAt cp index1), indices (entryAt cp2 index2) with
    | some (n1, s1), some (n2, s2) =>
      if (entryAt cp index1).tag = (entryAt cp2 index2).tag then do
        if ← compareEntryTo fuel cp n1 cp2 n2 then compareEntryTo fuel cp s1 cp2 s2
        else return false
      else .ok false
    | _, _ => compareDirect (entryAt cp index1) (entryAt cp2 index2)

/-- A reference, its name and type, and the symbols. -/
abbrev depth : Nat := 3

/-- The loop of `find_matching_entry`, with the indices left. -/
def findFrom (cp : Entries) (pattern : Nat) (search : Entries) : Nat → Nat → Except Stop Nat
  | 0, _ => .ok 0
  | left + 1, i => do
      if ← compareEntryTo depth cp pattern search i then return i
      else findFrom cp pattern search left (i + 1)

/-! ## The merged pool -/

/-- The merged pool so far, of `merge_cp_length` entries; `length` is what was allocated. The
indices that were put into entries are recorded in `packed`. -/
structure Merge where
  entries : Entries
  length : Nat
  map : IndexMap
  packed : List Nat
  deriving DecidableEq, Repr

namespace Merge

variable (m : Merge)

/-- What is beyond the entries is invalid and matches nothing. -/
def findMatchingEntry (scratch : Entries) (pattern : Nat) : Except Stop Nat :=
  findFrom scratch pattern m.entries (m.length - 1) 1

def mapIndex (old new : Nat) : Merge := { m with map := m.map.mapIndex old new }

/-- Write the entries at `merge_cp_length`. -/
def put (new : Entries) : Except Stop Merge :=
  if m.entries.length + new.length ≤ m.length then .ok { m with entries := m.entries ++ new }
  else .error .outOfBounds

/-- Put the new entries and map the index of the new pool to them. -/
def append (i : Nat) (new : Entries) : Except Stop Merge := do
  let m' ← m.put new
  return if i ≠ m.entries.length then m'.mapIndex i m.entries.length else m'

end Merge

/-- Two indices in an int, the first in the low half. -/
def pack (low high : Nat) : Nat × Nat := (low % 2 ^ 16, (high ||| low / 2 ^ 16) % 2 ^ 16)

/-- Whether the merged pool so far has an equal entry at the same index. -/
def matchesSame (scratch : Entries) (i : Nat) (m : Merge) : Except Stop Bool :=
  if i < m.entries.length then compareEntryTo depth scratch i m.entries i else .ok false

/-- Where the merged pool has an entry that another refers to: at the same index, elsewhere,
or appended. -/
def locate (appendEntry : Nat → Merge → Except Stop Merge) (scratch : Entries) (i : Nat)
    (m : Merge) : Except Stop (Nat × Merge) := do
  if ← matchesSame scratch i m then return (i, m)
  else do
    let found ← m.findMatchingEntry scratch i
    if found ≠ 0 then
      if found = i then .error .guarantee else return (found, m.mapIndex i found)
    else do
      let m ← appendEntry i m
      return (m.entries.length - 1, m)

/-- An entry that refers to two others, which are located first. -/
def appendPair (appendEntry : Nat → Merge → Except Stop Merge) (scratch : Entries) (i : Nat)
    (entry : Nat × Nat → CpEntry) (first second : Nat) (m : Merge) : Except Stop Merge := do
  let (newFirst, m) ← locate appendEntry scratch first m
  let (newSecond, m) ← locate appendEntry scratch second m
  { m with packed := newFirst :: newSecond :: m.packed }.append i [entry (pack newFirst newSecond)]

/-- Append an entry of the new pool, and before it what it refers to. A resolved class is
reverted. -/
def appendEntry (scratch : Entries) : Nat → Nat → Merge → Except Stop Merge
  | 0, _, _ => .error .unfinished
  | fuel + 1, i, m =>
    match entryAt scratch i with
    | .klass name => m.append i [.unresolvedKlass name]
    | .double d => m.append i [.double d, .invalid]
    | .long l => m.append i [.long l, .invalid]
    | .float f => m.append i [.float f]
    | .int n => m.append i [.int n]
    | .utf8 s => m.append i [.utf8 s]
    | .string s => m.append i [.string s]
    | .unresolvedKlass name => m.append i [.unresolvedKlass name]
    | .unresolvedString s => m.append i [.unresolvedString s]
    | .nameAndType name signature =>
      appendPair (appendEntry scratch fuel) scratch i (fun p => .nameAndType p.1 p.2)
        name signature m
    | .field klass nameAndType =>
      appendPair (appendEntry scratch fuel) scratch i (fun p => .field p.1 p.2)
        klass nameAndType m
    | .method klass nameAndType =>
      appendPair (appendEntry scratch fuel) scratch i (fun p => .method p.1 p.2)
        klass nameAndType m
    | .interfaceMethod klass nameAndType =>
      appendPair (appendEntry scratch fuel) scratch i (fun p => .interfaceMethod p.1 p.2)
        klass nameAndType m
    | .invalid | .unresolvedKlassInError _ => .error .shouldNotReachHere

/-! ## The passes -/

/-- The entries an entry takes. -/
def width : CpEntry → Nat
  | .double _ | .long _ => 2
  | _ => 1

def isUnresolvedClassMismatch (e1 e2 : CpEntry) : Bool :=
  match e1, e2 with
  | .klass s1, .unresolvedKlass s2 | .unresolvedKlass s1, .klass s2 => strcmpEq s1 s2
  | _, _ => false

def isUnresolvedStringMismatch (e1 e2 : CpEntry) : Bool :=
  match e1, e2 with
  | .string s1, .unresolvedString s2 | .unresolvedString s1, .string s2 => strcmpEq s1 s2
  | _, _ => false

/-- Pass 0: a copy of the old pool without resolved classes. A long or double skips the entry
behind it. -/
def copyOld : Entries → Except Stop Entries
  | [] => .ok []
  | [.double d] => .ok [.double d, .invalid]
  | [.long l] => .ok [.long l, .invalid]
  | .double d :: _ :: rest => do return .double d :: .invalid :: (← copyOld rest)
  | .long l :: _ :: rest => do return .long l :: .invalid :: (← copyOld rest)
  | .klass name :: rest => do return .unresolvedKlass name :: (← copyOld rest)
  | .invalid :: _ => .error .shouldNotReachHere
  | entry :: rest => do return entry :: (← copyOld rest)

/-- An entry that is not at the same index: elsewhere or appended. -/
def findOrAppend (scratch : Entries) (i : Nat) (sameIndex : Bool) (m : Merge) :
    Except Stop Merge := do
  let found ← m.findMatchingEntry scratch i
  if found ≠ 0 then
    if sameIndex ∧ found = i then .error .guarantee else return m.mapIndex i found
  else appendEntry scratch depth i m

/-- Pass 1a for an index that both pools have. -/
def turnCommon (scratch : Entries) (i : Nat) (m : Merge) : Except Stop Merge := do
  if ← compareEntryTo depth scratch i m.entries i then return m
  else if isUnresolvedClassMismatch (entryAt scratch i) (entryAt m.entries i) ∨
      isUnresolvedStringMismatch (entryAt scratch i) (entryAt m.entries i) then return m
  else findOrAppend scratch i true m

/-- Pass 1b for an index that only the new pool has. -/
def turnBeyond (scratch : Entries) (i : Nat) (m : Merge) : Except Stop Merge :=
  findOrAppend scratch i false m

/-- The loop of a pass, with a bound on the turns: where it ends. -/
def pass (scratch : Entries) (turn : Nat → Merge → Except Stop Merge) (limit : Nat) :
    Nat → Nat → Merge → Except Stop (Nat × Merge)
  | 0, i, m => .ok (i, m)
  | fuel + 1, i, m =>
    if i < limit then do
      let m ← turn i m
      pass scratch turn limit fuel (i + width (entryAt scratch i)) m
    else .ok (i, m)

/-- The merge, for a merged pool of the size that `merge_cp_and_rewrite` allocates. -/
def mergeConstantPools (old scratch : ConstantPool) : Except Stop Merge := do
  let copy ← copyOld (old.entries.drop 1)
  let m : Merge :=
    { entries := .invalid :: copy
      length := old.entries.length + scratch.entries.length
      map := .empty scratch.entries.length
      packed := [] }
  let (i, m) ← pass scratch.entries (turnCommon scratch.entries)
    (min old.entries.length scratch.entries.length) scratch.entries.length 1 m
  let (_, m) ← pass scratch.entries (turnBeyond scratch.entries) scratch.entries.length
    scratch.entries.length i m
  return m

/-! ## The index map of a merge -/

/-- The map of a pool of `n` entries, which has no mapping before the first. -/
structure Mapped (n : Nat) (map : IndexMap) : Prop where
  length : map.values.length = n
  none : map.count = 0 → ∀ value ∈ map.values, value = -1

namespace Mapped

variable {n : Nat} {map : IndexMap}

theorem empty (n : Nat) : Mapped n (.empty n) :=
  ⟨List.length_replicate, fun _ _ hvalue => List.eq_of_mem_replicate hvalue⟩

theorem mapIndex (h : Mapped n map) (i k : Nat) : Mapped n (map.mapIndex i k) := by
  unfold IndexMap.mapIndex
  split
  next => exact h
  next =>
    split
    next => exact h
    next => exact ⟨List.length_set.trans h.length, fun hcount => absurd hcount (Nat.succ_ne_zero _)⟩

/-- What is read for an index that is not mapped. -/
theorem findNewIndex_eq (h : Mapped n map) (i : Nat) :
    map.findNewIndex i =
      if 1 ≤ i ∧ i < n then
        if map.values.getD i 0 = -1 then 0 else map.values.getD i 0
      else 0 := by
  unfold IndexMap.findNewIndex
  rw [h.length]
  by_cases hrange : 1 ≤ i ∧ i < n
  · rw [if_pos hrange]
    by_cases hcount : map.count = 0
    · have hlt : i < map.values.length := h.length ▸ hrange.2
      rw [if_pos hcount, List.getD_eq_getElem _ _ hlt,
        if_pos (h.none hcount _ (List.getElem_mem hlt))]
    · rw [if_neg hcount, if_neg (by omega)]
      rfl
  · rw [if_neg hrange]
    split
    · rfl
    · rw [if_pos (by omega)]

/-- A mapping of one index leaves the others as they are. -/
theorem findNewIndex_mapIndex_of_ne (h : Mapped n map) {i j : Nat} (k : Nat) (hne : j ≠ i) :
    (map.mapIndex i k).findNewIndex j = map.findNewIndex j := by
  rw [(h.mapIndex i k).findNewIndex_eq, h.findNewIndex_eq]
  have hvalues : (map.mapIndex i k).values.getD j 0 = map.values.getD j 0 := by
    unfold IndexMap.mapIndex
    split
    next => rfl
    next =>
      split
      next => rfl
      next => simp [List.getD_eq_getElem?_getD, List.getElem?_set_ne hne.symm]
  rw [hvalues]

/-- The first mapping of an index. -/
theorem newIndex_mapIndex (h : Mapped n map) {i k : Nat} (hfirst : map.findNewIndex i = 0)
    (hi : 1 ≤ i ∧ i < n) (hk : k ≠ 0) : (map.mapIndex i k).newIndex i = k := by
  by_cases heq : i = k
  · unfold IndexMap.mapIndex
    rw [if_neg (not_not.mpr hfirst), if_pos heq, IndexMap.newIndex_of_eq_zero hfirst, heq]
  · have hvalue : (map.mapIndex i k).values.getD i 0 = k := by
      unfold IndexMap.mapIndex
      rw [if_neg (not_not.mpr hfirst), if_neg heq]
      have hlt : i < map.values.length := h.length ▸ hi.2
      simp [List.getD_eq_getElem?_getD, hlt]
    have hfind : (map.mapIndex i k).findNewIndex i = k := by
      rw [(h.mapIndex i k).findNewIndex_eq, if_pos hi, hvalue, if_neg (by omega)]
    rw [IndexMap.newIndex, hfind, if_pos (by exact_mod_cast hk), Int.toNat_natCast]

end Mapped

/-! ## Pools of class files -/

/-- A long or double takes two entries, and no other entry is invalid. -/
def Paired : Entries → Prop
  | [] => True
  | .double _ :: .invalid :: rest | .long _ :: .invalid :: rest => Paired rest
  | .double _ :: _ | .long _ :: _ | .invalid :: _ => False
  | _ :: rest => Paired rest

def isUtf8 : CpEntry → Bool
  | .utf8 _ => true
  | _ => false

def isKlass : CpEntry → Bool
  | .klass _ | .unresolvedKlass _ => true
  | _ => false

def isNameAndType : CpEntry → Bool
  | .nameAndType _ _ => true
  | _ => false

def isRef : CpEntry → Bool
  | .field _ _ | .method _ _ | .interfaceMethod _ _ => true
  | _ => false

/-- A pool whose first entry is not used. -/
structure Laid (entries : Entries) : Prop where
  pos : 0 < entries.length
  first : entryAt entries 0 = .invalid
  paired : Paired (entries.drop 1)

/-- A pool as the class file parser builds it: classes may be resolved, and references may
point forward and be shared. -/
structure Built (entries : Entries) : Prop extends Laid entries where
  nameAndType : ∀ {i name signature : Nat}, entryAt entries i = .nameAndType name signature →
    isUtf8 (entryAt entries name) = true ∧ isUtf8 (entryAt entries signature) = true
  ref : ∀ {i klass nameAndType : Nat}, isRef (entryAt entries i) = true →
    indices (entryAt entries i) = some (klass, nameAndType) →
      isKlass (entryAt entries klass) = true ∧ isNameAndType (entryAt entries nameAndType) = true

theorem one_le_width (e : CpEntry) : 1 ≤ width e := by
  unfold width
  split <;> decide

/-- The entries that another refers to are neither numbers nor strings nor members. -/
theorem Built.indices {entries : Entries} (h : Built entries) {i first second : Nat}
    (hi : indices (entryAt entries i) = some (first, second)) :
    (isUtf8 (entryAt entries first) = true ∨ isKlass (entryAt entries first) = true) ∧
      (isUtf8 (entryAt entries second) = true ∨
        isNameAndType (entryAt entries second) = true) := by
  cases hentry : entryAt entries i with
  | nameAndType name signature =>
    obtain ⟨hname, hsignature⟩ := h.nameAndType hentry
    rw [hentry] at hi
    cases hi
    exact ⟨Or.inl hname, Or.inl hsignature⟩
  | field klass nameAndType | method klass nameAndType | interfaceMethod klass nameAndType =>
    obtain ⟨hklass, hnameAndType⟩ := h.ref (by rw [hentry]; rfl) hi
    exact ⟨Or.inr hklass, Or.inr hnameAndType⟩
  | _ => rw [hentry] at hi; cases hi

theorem Paired.tail {e : CpEntry} {rest : Entries} (h : Paired (e :: rest)) :
    e ≠ .invalid ∧ Paired (rest.drop (width e - 1)) := by
  cases e with
  | double d =>
    cases rest with
    | nil => exact h.elim
    | cons second rest =>
      cases second <;> first | exact h.elim | exact ⟨by simp, h⟩
  | long l =>
    cases rest with
    | nil => exact h.elim
    | cons second rest =>
      cases second <;> first | exact h.elim | exact ⟨by simp, h⟩
  | invalid => exact h.elim
  | _ => exact ⟨by simp, h⟩

theorem Paired.head {entries : Entries} {i : Nat} (h : Paired (entries.drop i))
    (hi : i < entries.length) :
    entryAt entries i ≠ .invalid ∧
      Paired (entries.drop (i + width (entryAt entries i))) := by
  have hget : entryAt entries i = entries[i] := List.getD_eq_getElem _ _ hi
  rw [List.drop_eq_getElem_cons hi] at h
  obtain ⟨hne, hrest⟩ := h.tail
  rw [hget]
  refine ⟨hne, ?_⟩
  rw [List.drop_drop] at hrest
  have hwidth := one_le_width entries[i]
  rwa [show i + 1 + (width entries[i] - 1) = i + width entries[i] by omega] at hrest

/-- What pass 0 makes of an entry. -/
def revert : CpEntry → CpEntry
  | .klass name => .unresolvedKlass name
  | entry => entry

theorem copyOld_eq {entries : Entries} (h : Paired entries) :
    copyOld entries = .ok (entries.map revert) := by
  fun_induction copyOld entries with
  | case1 => rfl
  | case2 d => exact h.elim
  | case3 l => exact h.elim
  | case4 d second rest ih =>
    cases second <;> first | exact absurd h id | rw [ih h]; rfl
  | case5 l second rest ih =>
    cases second <;> first | exact absurd h id | rw [ih h]; rfl
  | case6 name rest ih => rw [ih h]; rfl
  | case7 rest => exact h.elim
  | case8 e rest hd hl hd' hl' hk hi ih =>
    cases e with
    | klass name => exact (hk name rfl).elim
    | invalid => exact h.elim
    | double d =>
      cases rest with
      | nil => exact h.elim
      | cons second rest => exact (hd' d second rest rfl rfl).elim
    | long l =>
      cases rest with
      | nil => exact h.elim
      | cons second rest => exact (hl' l second rest rfl rfl).elim
    | _ => rw [ih h]; rfl

/-- What is behind the first of the entries that an entry takes. -/
theorem Paired.second {entries : Entries} {i j : Nat} (h : Paired (entries.drop i))
    (hi : i < entries.length) (hij : i < j) (hj : j < i + width (entryAt entries i)) :
    entryAt entries j = .invalid := by
  have hwidth : width (entryAt entries i) = 2 := by
    have hle : width (entryAt entries i) ≤ 2 := by
      unfold width
      split <;> decide
    omega
  have hnext : j = i + 1 := by omega
  subst hnext
  by_cases hlt : i + 1 < entries.length
  · rw [List.drop_eq_getElem_cons hi, List.drop_eq_getElem_cons hlt] at h
    rw [entryAt_eq hi] at hwidth
    rw [entryAt_eq hlt]
    generalize entries[i] = e at h hwidth
    generalize entries[i + 1] = e' at h ⊢
    cases e with
    | double d => cases e' <;> first | rfl | exact h.elim
    | long l => cases e' <;> first | rfl | exact h.elim
    | _ => cases hwidth
  · exact entryAt_beyond (by omega)

/-- The turns of a pass from `low` on keep `P`, if each does. -/
theorem pass_concludes {scratch : Entries} {turn : Nat → Merge → Except Stop Merge}
    {E : Stop → Prop} {P : Nat → Merge → Prop} (low : Nat) {limit fuel t : Nat} {m : Merge}
    (hlimit : limit ≤ scratch.length)
    (hturn : ∀ t m, P t m → 0 < t → low ≤ t → t < limit → Paired (scratch.drop t) →
      Concludes E (turn t m) (P (t + width (entryAt scratch t))))
    (h : P t m) (hpos : 0 < t) (hlow : low ≤ t) (hpaired : Paired (scratch.drop t))
    (hfuel : limit ≤ t + fuel) :
    Concludes E (pass scratch turn limit fuel t m) fun (t', m') =>
      P t' m' ∧ 0 < t' ∧ limit ≤ t' ∧ Paired (scratch.drop t') := by
  induction fuel generalizing t m with
  | zero => exact Concludes.ok ⟨h, hpos, hfuel, hpaired⟩
  | succ fuel ih =>
    unfold pass
    split
    next hlt =>
      have hwidth := one_le_width (entryAt scratch t)
      exact (hturn t m h hpos hlow hlt hpaired).bind fun m₁ hm₁ =>
        ih hm₁ (by omega) (by omega) (hpaired.head (by omega)).2 (by omega)
    next hge => exact Concludes.ok ⟨h, hpos, Nat.not_lt.mp hge, hpaired⟩

end PoolMerge
end HotSpot
