import Mathlib

/-! # Matching the methods of a redefined class

`compare_and_normalize_class_versions` walks through the old and the new methods, both sorted by
name. Overloads of the new class are put in the order of the old ones; a matched method gets the
number of its old version, and an added one a number that was not used before.
-/

namespace HotSpot.RedefineClasses

/-! ## Methods -/

/-- What the walk reads and writes of a method. -/
structure Method (Name Sig : Type) where
  name : Name
  signature : Sig
  accessFlags : BitVec 16
  idnum : Nat
  deriving DecidableEq, Repr

def accPrivate : BitVec 16 := 0x0002
def accStatic : BitVec 16 := 0x0008
def accFinal : BitVec 16 := 0x0010
def accNative : BitVec 16 := 0x0100

def maxIdnum : Nat := 0xFFFE
def unsetIdnum : Nat := 0xFFFF

variable {Name Sig : Type}

namespace Method

/-- What an overload is told apart by. -/
def key (m : Method Name Sig) : Name × Sig := (m.name, m.signature)

/-- What the walk leaves as it is. -/
def body (m : Method Name Sig) : Name × Sig × BitVec 16 := (m.name, m.signature, m.accessFlags)

/-- The modifiers other than native are not the same. -/
def modifiersDiffer (old new : Method Name Sig) : Bool :=
  (old.accessFlags ^^^ new.accessFlags) &&& ~~~accNative != 0

/-- A method that may be added or deleted. -/
def isPrivateFinal (m : Method Name Sig) : Bool :=
  m.accessFlags &&& accPrivate != 0 && m.accessFlags &&& (accFinal ||| accStatic) != 0

end Method

/-! ## Annotations -/

/-- An `objArrayOop` of annotations by number, that may be `NULL`. -/
abbrev Annotations (T : Type) : Type := Option (List (Option T))

variable {T : Type}

/-- `get_method_annotations_from` -/
def getMethodAnnotationsFrom (idnum : Nat) (annos : Annotations T) : Option T :=
  match annos with
  | none => none
  | some annos => (annos[idnum]?).join

/-- `set_methods_annotations_of` -/
def setMethodsAnnotationsOf (idnumAllocatedCount idnum : Nat) (anno : Option T)
    (md : Annotations T) : Annotations T :=
  match md with
  | some annos =>
    if idnum < annos.length then some (annos.set idnum anno)
    else if anno.isSome then
      let length := max (idnum + 1) idnumAllocatedCount
      some ((annos ++ List.replicate (length - annos.length) none).set idnum anno)
    else md
  | none =>
    if anno.isSome then
      let length := max (idnum + 1) idnumAllocatedCount
      some ((List.replicate length none).set idnum anno)
    else md

/-- What the walk reads and writes of the new class. -/
structure ScratchClass (Name Sig T : Type) where
  methods : List (Method Name Sig)
  methodsAnnotations : Annotations T
  methodsParameterAnnotations : Annotations T
  methodsDefaultAnnotations : Annotations T
  idnumAllocatedCount : Nat

namespace ScratchClass

variable (k : ScratchClass Name Sig T)

def getMethodAnnotationsOf (idnum : Nat) : Option T :=
  getMethodAnnotationsFrom idnum k.methodsAnnotations

def getMethodParameterAnnotationsOf (idnum : Nat) : Option T :=
  getMethodAnnotationsFrom idnum k.methodsParameterAnnotations

def getMethodDefaultAnnotationsOf (idnum : Nat) : Option T :=
  getMethodAnnotationsFrom idnum k.methodsDefaultAnnotations

def setMethodAnnotationsOf (idnum : Nat) (anno : Option T) : ScratchClass Name Sig T :=
  { k with
    methodsAnnotations :=
      setMethodsAnnotationsOf k.idnumAllocatedCount idnum anno k.methodsAnnotations }

/-- Sets the annotations, not the parameter annotations. -/
def setMethodParameterAnnotationsOf (idnum : Nat) (anno : Option T) : ScratchClass Name Sig T :=
  { k with
    methodsAnnotations :=
      setMethodsAnnotationsOf k.idnumAllocatedCount idnum anno k.methodsAnnotations }

/-- Sets the annotations, not the default annotations. -/
def setMethodDefaultAnnotationsOf (idnum : Nat) (anno : Option T) : ScratchClass Name Sig T :=
  { k with
    methodsAnnotations :=
      setMethodsAnnotationsOf k.idnumAllocatedCount idnum anno k.methodsAnnotations }

def swapAllMethodAnnotations (i j : Nat) : ScratchClass Name Sig T :=
  let save := k.getMethodAnnotationsOf i
  let k := k.setMethodAnnotationsOf i (k.getMethodAnnotationsOf j)
  let k := k.setMethodAnnotationsOf j save
  let save := k.getMethodParameterAnnotationsOf i
  let k := k.setMethodParameterAnnotationsOf i (k.getMethodParameterAnnotationsOf j)
  let k := k.setMethodParameterAnnotationsOf j save
  let save := k.getMethodDefaultAnnotationsOf i
  let k := k.setMethodDefaultAnnotationsOf i (k.getMethodDefaultAnnotationsOf j)
  k.setMethodDefaultAnnotationsOf j save

end ScratchClass

/-! ## Numbers -/

/-- `method_with_idnum`: the place of a method. When the search fails it is the last one. -/
def methodWithIdnum (methods : List (Method Name Sig)) (idnum : Nat) : Option Nat :=
  if (methods[idnum]?).any (·.idnum = idnum) then some idnum
  else
    match methods.findIdx? (·.idnum = idnum) with
    | some index => some index
    | none => if methods = [] then none else some (methods.length - 1)

def setMethodIdnum (methods : List (Method Name Sig)) (index num : Nat) :
    List (Method Name Sig) :=
  methods.modify index fun m => { m with idnum := num }

/-- The method at a place gets a number, and the one that has it gets its number. -/
def renumber (methods : List (Method Name Sig)) (ni newNum num : Nat) : List (Method Name Sig) :=
  let methods := match methodWithIdnum methods num with
    | some owner => setMethodIdnum methods owner newNum
    | none => methods
  setMethodIdnum methods ni num

/-- A matched method gets the number of its old version. -/
def ScratchClass.takeOver (k : ScratchClass Name Sig T) (ni : Nat) (old new : Method Name Sig) :
    ScratchClass Name Sig T :=
  if new.idnum ≠ old.idnum then
    let k := { k with methods := renumber k.methods ni new.idnum old.idnum }
    k.swapAllMethodAnnotations old.idnum new.idnum
  else k

/-- An added method gets a number that was not used. -/
def ScratchClass.allocate (k : ScratchClass Name Sig T) (ni : Nat) (new : Method Name Sig)
    (num : Nat) : ScratchClass Name Sig T :=
  let k := { k with methods := renumber k.methods ni new.idnum num }
  k.swapAllMethodAnnotations new.idnum num

/-- `next_method_idnum`, with the count that follows. -/
def nextMethodIdnum (idnumAllocatedCount : Nat) : Nat × Nat :=
  if idnumAllocatedCount = maxIdnum then (unsetIdnum, idnumAllocatedCount)
  else (idnumAllocatedCount, (idnumAllocatedCount + 1) % 2 ^ 16)

/-! ## The walk -/

/-- What has become of a method, and of its number. -/
inductive Fate (Name Sig : Type) where
  | matched (old new : Method Name Sig)
  | added (new : Method Name Sig)
  | deleted (old : Method Name Sig)
  deriving DecidableEq, Repr

section

variable [LinearOrder Name] [DecidableEq Sig]

/-- The search through the overloads, with those of the new methods that are left. -/
def searchForward (old : Method Name Sig) : List (Method Name Sig) → Nat →
    Option (Nat × Method Name Sig)
  | [], _ => none
  | m :: rest, nj =>
    if old.name ≠ m.name then none
    else if old.signature = m.signature then some (nj, m)
    else searchForward old rest (nj + 1)

/-- What has become of the method at the cursors, with the new methods in order. -/
def fate (oldMethods newMethods : List (Method Name Sig)) (oi ni : Nat) :
    Option (Fate Name Sig × List (Method Name Sig)) :=
  match oldMethods[oi]?, newMethods[ni]? with
  | none, none => none
  | none, some new => some (.added new, newMethods)
  | some old, none => some (.deleted old, newMethods)
  | some old, some new =>
    if old.name ≠ new.name then
      if new.name < old.name then some (.added new, newMethods)
      else some (.deleted old, newMethods)
    else if old.signature = new.signature then some (.matched old new, newMethods)
    else
      match searchForward old (newMethods.drop (ni + 1)) (ni + 1) with
      | some (nj, m) => some (.matched old m, (newMethods.set ni m).set nj new)
      | none => some (.deleted old, newMethods)

inductive JvmtiError where
  | none | methodModifiersChanged | methodAdded | methodDeleted
  deriving DecidableEq, Repr

/-- The cursors, the new class, the count of the old class, and what was found so far. -/
structure Walk (Name Sig T : Type) where
  oi : Nat
  ni : Nat
  scratch : ScratchClass Name Sig T
  idnumAllocatedCount : Nat
  fates : List (Fate Name Sig)

inductive Turn (Name Sig T : Type) where
  | done (error : JvmtiError) (w : Walk Name Sig T)
  | next (w : Walk Name Sig T)

/-- The `switch` on what has become of the method. -/
def judge (w : Walk Name Sig T) : Fate Name Sig → Turn Name Sig T
  | .matched old new =>
    if old.modifiersDiffer new then .done .methodModifiersChanged w
    else .next { w with
      oi := w.oi + 1
      ni := w.ni + 1
      scratch := w.scratch.takeOver w.ni old new }
  | .added new =>
    if !new.isPrivateFinal then .done .methodAdded w
    else
      let (num, count) := nextMethodIdnum w.idnumAllocatedCount
      let w := { w with idnumAllocatedCount := count }
      if num = unsetIdnum then .done .methodAdded w
      else .next { w with ni := w.ni + 1, scratch := w.scratch.allocate w.ni new num }
  | .deleted old =>
    if !old.isPrivateFinal then .done .methodDeleted w
    else .next { w with oi := w.oi + 1 }

/-- The new methods are in order, and a fate is known. -/
def Walk.record (w : Walk Name Sig T) (found : Fate Name Sig) (methods : List (Method Name Sig)) :
    Walk Name Sig T :=
  { w with
    scratch := { w.scratch with methods := methods }
    fates := w.fates ++ [found] }

/-- One turn of the walk. -/
def turn (oldMethods : List (Method Name Sig)) (w : Walk Name Sig T) : Turn Name Sig T :=
  match fate oldMethods w.scratch.methods w.oi w.ni with
  | none => .done .none w
  | some (found, methods) => judge (w.record found methods) found

/-- The walk, within the turns that it has. -/
def walk (oldMethods : List (Method Name Sig)) :
    Nat → Walk Name Sig T → Option (JvmtiError × Walk Name Sig T)
  | 0, _ => none
  | fuel + 1, w =>
    match turn oldMethods w with
    | .done error w => some (error, w)
    | .next w => walk oldMethods fuel w

end

/-! ## Numbering -/

variable {methods : List (Method Name Sig)} {m : Method Name Sig} {ni num : Nat}

theorem getElem?_setMethodIdnum (index j : Nat) : (setMethodIdnum methods index num)[j]? =
    if index = j then methods[j]?.map fun m => { m with idnum := num } else methods[j]? := by
  unfold setMethodIdnum
  rw [List.getElem?_modify]
  split
  next => rfl
  next => exact Option.map_id_apply

theorem map_setMethodIdnum {B : Type} (f : Method Name Sig → B)
    (hf : ∀ m num, f { m with idnum := num } = f m) (index : Nat) :
    (setMethodIdnum methods index num).map f = methods.map f := by
  refine List.ext_getElem? fun j => ?_
  rw [List.getElem?_map, List.getElem?_map, getElem?_setMethodIdnum]
  split
  next =>
    rw [Option.map_map]
    exact congrArg (fun g => methods[j]?.map g) (funext fun m => hf m num)
  next => rfl

/-- What does not depend on the number stays as it is. -/
theorem map_renumber {B : Type} (f : Method Name Sig → B)
    (hf : ∀ m num, f { m with idnum := num } = f m) (newNum : Nat) :
    (renumber methods ni newNum num).map f = methods.map f := by
  unfold renumber
  simp only
  rw [map_setMethodIdnum f hf]
  split
  next => exact map_setMethodIdnum f hf _
  next => rfl

/-- The search gives the method with a number, or the last one. -/
theorem methodWithIdnum_spec (hne : methods ≠ []) (idnum : Nat) :
    ∃ owner, methodWithIdnum methods idnum = some owner ∧
      ((∃ m, methods[owner]? = some m ∧ m.idnum = idnum) ∨
        (∀ m ∈ methods, m.idnum ≠ idnum) ∧ owner = methods.length - 1) := by
  unfold methodWithIdnum
  split
  next hfast =>
    obtain ⟨m, hm, hidnum⟩ := Option.any_eq_true _ _ |>.mp hfast
    exact ⟨idnum, rfl, .inl ⟨m, hm, of_decide_eq_true hidnum⟩⟩
  next =>
    split
    next index hindex =>
      obtain ⟨hlt, hidnum, -⟩ := List.findIdx?_eq_some_iff_getElem.mp hindex
      exact ⟨index, rfl, .inl ⟨methods[index], List.getElem?_eq_getElem hlt,
        of_decide_eq_true hidnum⟩⟩
    next hnone =>
      refine ⟨_, rfl, .inr ⟨fun m hm heq => ?_, rfl⟩⟩
      have hall := List.findIdx?_eq_none_iff.mp hnone m hm
      rw [decide_eq_false_iff_not] at hall
      exact hall heq

/-- No two methods have the same number. -/
def Distinct (methods : List (Method Name Sig)) : Prop :=
  ∀ (i j : Nat) (m m' : Method Name Sig), methods[i]? = some m → methods[j]? = some m' →
    m.idnum = m'.idnum → i = j

theorem distinct_iff : Distinct methods ↔ (methods.map (·.idnum)).Nodup := by
  unfold Distinct List.Nodup
  rw [List.pairwise_map, List.pairwise_iff_getElem]
  constructor
  · intro h i j hi hj hlt heq
    have hsame := h i j _ _ (List.getElem?_eq_getElem hi) (List.getElem?_eq_getElem hj) heq
    omega
  · intro h i j m m' hm hm' heq
    obtain ⟨hi, rfl⟩ := List.getElem?_eq_some_iff.mp hm
    obtain ⟨hj, rfl⟩ := List.getElem?_eq_some_iff.mp hm'
    rcases Nat.lt_trichotomy i j with hlt | rfl | hgt
    · exact absurd heq (h i j hi hj hlt)
    · rfl
    · exact absurd heq.symm (h j i hj hi hgt)

/-- The method that gives up a number: the one that has it, or the last one. -/
def Gives (methods : List (Method Name Sig)) (num owner : Nat) : Prop :=
  (∃ p, methods[owner]? = some p ∧ p.idnum = num) ∨
    (∀ p ∈ methods, p.idnum ≠ num) ∧ owner = methods.length - 1

/-- What one renumbering does at each place. -/
theorem renumber_spec (hm : methods[ni]? = some m) (num : Nat) :
    ∃ owner, Gives methods num owner ∧
      ∀ j, (renumber methods ni m.idnum num)[j]? =
        if j = ni then some { m with idnum := num }
        else if j = owner then methods[j]?.map fun p => { p with idnum := m.idnum }
        else methods[j]? := by
  have hne : methods ≠ [] := by
    rintro rfl
    cases hm
  obtain ⟨owner, howner, hcases⟩ := methodWithIdnum_spec hne num
  refine ⟨owner, hcases, fun j => ?_⟩
  unfold renumber
  simp only [howner, getElem?_setMethodIdnum]
  by_cases hj : j = ni
  · subst hj
    rw [if_pos rfl, if_pos rfl, hm]
    split <;> rfl
  · rw [if_neg (Ne.symm hj), if_neg hj]
    exact if_congr eq_comm rfl rfl

/-- The numbers stay apart, even when the last method gives up its own for nothing. -/
theorem distinct_renumber (hm : methods[ni]? = some m) (hdistinct : Distinct methods) (num : Nat) :
    Distinct (renumber methods ni m.idnum num) := by
  obtain ⟨owner, hgives, hrenumber⟩ := renumber_spec hm num
  -- A number that is given up is nobody else's.
  have hgiven : ∀ j p, methods[j]? = some p → p.idnum = num → j = owner := by
    intro j p hp hnum
    rcases hgives with ⟨q, hq, hidnum⟩ | ⟨hnone, -⟩
    · exact hdistinct j owner p q hp hq (hnum.trans hidnum.symm)
    · exact absurd hnum (hnone p (List.mem_of_getElem? hp))
  have hself : ∀ j p, j ≠ ni → (renumber methods ni m.idnum num)[j]? = some p → p.idnum ≠ num := by
    intro j p hj hp hnum
    rw [hrenumber, if_neg hj] at hp
    split at hp
    next howner =>
      obtain ⟨q, hq, rfl⟩ := Option.map_eq_some_iff.mp hp
      exact hj (howner.trans (hgiven ni m hm hnum).symm)
    next howner => exact howner (hgiven j p hp hnum)
  have hother : ∀ i j p q, i ≠ ni → j ≠ ni → (renumber methods ni m.idnum num)[i]? = some p →
      (renumber methods ni m.idnum num)[j]? = some q → p.idnum = q.idnum → i = owner → i = j := by
    intro i j p q hi hj hp hq heq howner
    rw [hrenumber, if_neg hi, if_pos howner] at hp
    rw [hrenumber, if_neg hj] at hq
    obtain ⟨p', -, rfl⟩ := Option.map_eq_some_iff.mp hp
    split at hq
    next howner' => exact howner.trans howner'.symm
    next => exact absurd (hdistinct ni j m q hm hq heq).symm hj
  intro i j p q hp hq heq
  by_cases hi : i = ni <;> by_cases hj : j = ni
  · exact hi.trans hj.symm
  · have hnum : p.idnum = num := by
      rw [hrenumber, if_pos hi] at hp
      obtain rfl := Option.some.inj hp
      rfl
    exact absurd (heq ▸ hnum) (hself j q hj hq)
  · have hnum : q.idnum = num := by
      rw [hrenumber, if_pos hj] at hq
      obtain rfl := Option.some.inj hq
      rfl
    exact absurd (heq ▸ hnum) (hself i p hi hp)
  · by_cases howner : i = owner
    · exact hother i j p q hi hj hp hq heq howner
    · by_cases howner' : j = owner
      · exact (hother j i q p hj hi hq hp heq.symm howner').symm
      · rw [hrenumber, if_neg hi, if_neg howner] at hp
        rw [hrenumber, if_neg hj, if_neg howner'] at hq
        exact hdistinct i j p q hp hq heq

/-- The methods in front keep their numbers. -/
theorem renumber_of_lt (hm : methods[ni]? = some m) {j : Nat} (hj : j < ni) {p : Method Name Sig}
    (hp : methods[j]? = some p) (hnum : p.idnum ≠ num) :
    (renumber methods ni m.idnum num)[j]? = some p := by
  obtain ⟨owner, hgives, hrenumber⟩ := renumber_spec hm num
  have hni := (List.getElem?_eq_some_iff.mp hm).1
  have howner : j ≠ owner := by
    rintro rfl
    rcases hgives with ⟨q, hq, hidnum⟩ | ⟨-, hlast⟩
    · obtain rfl := Option.some.inj (hp.symm.trans hq)
      exact hnum hidnum
    · omega
  rw [hrenumber, if_neg (Nat.ne_of_lt hj), if_neg howner, hp]

theorem nextMethodIdnum_spec {count : Nat} (hcount : count < 2 ^ 16) :
    if (nextMethodIdnum count).1 = unsetIdnum then maxIdnum ≤ count
    else (nextMethodIdnum count).1 = count ∧ (nextMethodIdnum count).2 = count + 1 ∧
      count < maxIdnum := by
  unfold nextMethodIdnum unsetIdnum maxIdnum
  by_cases heq : count = 0xFFFE
  · rw [if_pos heq, if_pos rfl]
    omega
  · rw [if_neg heq]
    simp only
    split
    next => omega
    next => exact ⟨trivial, Nat.mod_eq_of_lt (by omega), by omega⟩

/-! ## Fates -/

namespace Fate

def oldKey : Fate Name Sig → Option (Name × Sig)
  | .matched old _ => some old.key
  | .added _ => none
  | .deleted old => some old.key

def newKey : Fate Name Sig → Option (Name × Sig)
  | .matched _ new => some new.key
  | .added new => some new.key
  | .deleted _ => none

def isAdded : Fate Name Sig → Bool
  | .added _ => true
  | _ => false

/-- The fate that a method should have. -/
def Correct (oldMethods newMethods : List (Method Name Sig)) : Fate Name Sig → Prop
  | .matched old new => old ∈ oldMethods ∧ new.body ∈ newMethods.map Method.body ∧
      old.key = new.key
  | .added new => new.body ∈ newMethods.map Method.body ∧ new.key ∉ oldMethods.map Method.key
  | .deleted old => old ∈ oldMethods ∧ old.key ∉ newMethods.map Method.key

/-- The modifiers allow it. -/
def Allowed : Fate Name Sig → Prop
  | .matched old new => old.modifiersDiffer new = false
  | .added new => new.isPrivateFinal = true
  | .deleted old => old.isPrivateFinal = true

end Fate

theorem key_eq_of_body_eq {m m' : Method Name Sig} (h : m.body = m'.body) : m.key = m'.key :=
  congrArg (fun body : Name × Sig × BitVec 16 => (body.1, body.2.1)) h

theorem accessFlags_eq_of_body_eq {m m' : Method Name Sig} (h : m.body = m'.body) :
    m.accessFlags = m'.accessFlags :=
  congrArg (fun body : Name × Sig × BitVec 16 => body.2.2) h

theorem key_mem_of_body_mem {methods : List (Method Name Sig)} {m : Method Name Sig}
    (h : m.body ∈ methods.map Method.body) : m.key ∈ methods.map Method.key := by
  obtain ⟨p, hp, hbody⟩ := List.mem_map.mp h
  exact List.mem_map.mpr ⟨p, hp, key_eq_of_body_eq hbody⟩

theorem perm_key_of_perm_body {l l' : List (Method Name Sig)}
    (h : (l.map Method.body).Perm (l'.map Method.body)) :
    (l.map Method.key).Perm (l'.map Method.key) := by
  have hkey : ∀ l : List (Method Name Sig), (l.map Method.body).map
      (fun body : Name × Sig × BitVec 16 => (body.1, body.2.1)) = l.map Method.key := by
    intro l
    rw [List.map_map]
    rfl
  rw [← hkey, ← hkey]
  exact h.map _

/-- A key is not met again. -/
theorem key_not_mem_take {l : List (Method Name Sig)} (hnodup : (l.map Method.key).Nodup) {i : Nat}
    {m : Method Name Sig} (hm : l[i]? = some m) : m.key ∉ (l.take i).map Method.key := by
  intro hmem
  obtain ⟨p, hp, hkey⟩ := List.mem_map.mp hmem
  obtain ⟨j, hj⟩ := List.mem_iff_getElem?.mp hp
  have hlt : j < i := by
    have hlen := (List.getElem?_eq_some_iff.mp hj).1
    rw [List.length_take] at hlen
    omega
  rw [List.getElem?_take_of_lt hlt] at hj
  have hkeys : (l.map Method.key)[j]? = (l.map Method.key)[i]? := by
    rw [List.getElem?_map, List.getElem?_map, hj, hm]
    exact congrArg some hkey
  have hjlen := (List.getElem?_eq_some_iff.mp hj).1
  exact Nat.ne_of_lt hlt (List.getElem?_inj (by simpa using hjlen) hnodup |>.mp hkeys)

/-- A key is in front of a cursor or from the cursor on. -/
theorem mem_take_or_drop {l : List (Method Name Sig)} {key : Name × Sig}
    (h : key ∈ l.map Method.key) (i : Nat) :
    key ∈ (l.take i).map Method.key ∨ ∃ m ∈ l.drop i, m.key = key := by
  rw [← List.take_append_drop i l, List.map_append, List.mem_append] at h
  exact h.imp_right List.mem_map.mp

/-- An overload that is found is put in its place. -/
theorem swap_spec {new : Method Name Sig} {nj : Nat} (hni : methods[ni]? = some new)
    (hnj : methods[nj]? = some m) (hlt : ni < nj) (hname : new.name = m.name) :
    ((methods.set ni m).set nj new).Perm methods ∧
      ((methods.set ni m).set nj new).map Method.name = methods.map Method.name ∧
      ((methods.set ni m).set nj new).take ni = methods.take ni ∧
      ((methods.set ni m).set nj new)[ni]? = some m := by
  obtain ⟨hi, rfl⟩ := List.getElem?_eq_some_iff.mp hni
  obtain ⟨hj, rfl⟩ := List.getElem?_eq_some_iff.mp hnj
  refine ⟨List.set_set_perm hi hj, ?_, ?_, ?_⟩
  · have hset : ∀ i (hi : i < methods.length) (name : Name), methods[i].name = name →
        (methods.map Method.name).set i name = methods.map Method.name := by
      intro i hi name hname
      refine List.ext_getElem? fun j => ?_
      rw [List.getElem?_set]
      split
      next heq => rw [← heq, List.getElem?_map, List.getElem?_eq_getElem hi, List.length_map,
          if_pos hi, Option.map_some, hname]
      next => rfl
    rw [List.map_set, List.map_set, hset ni hi _ hname, hset nj hj _ hname.symm]
  · rw [List.take_set_of_le (by omega), List.take_set_of_le (Nat.le_refl ni)]
  · rw [List.getElem?_set_ne (by omega), List.getElem?_set_self hi]

/-! ## One fate -/

section

variable [LinearOrder Name] {old new : Method Name Sig}
  {oldMethods newMethods : List (Method Name Sig)} {oi : Nat} {fates : List (Fate Name Sig)}

/-- What has been found in front of the cursors. -/
structure Found (oldMethods newMethods methods : List (Method Name Sig)) (oi ni : Nat)
    (fates : List (Fate Name Sig)) : Prop where
  body : (methods.map Method.body).Perm (newMethods.map Method.body)
  sorted : (methods.map Method.name).Pairwise (· ≤ ·)
  oldKeys : fates.filterMap Fate.oldKey = (oldMethods.take oi).map Method.key
  newKeys : fates.filterMap Fate.newKey = (methods.take ni).map Method.key
  correct : ∀ f ∈ fates, f.Correct oldMethods newMethods

/-- The methods of both classes. -/
structure Given (oldMethods newMethods : List (Method Name Sig)) : Prop where
  oldSorted : (oldMethods.map Method.name).Pairwise (· ≤ ·)
  newSorted : (newMethods.map Method.name).Pairwise (· ≤ ·)
  oldKeys : (oldMethods.map Method.key).Nodup
  newKeys : (newMethods.map Method.key).Nodup

theorem Found.keys_nodup (h : Found oldMethods newMethods methods oi ni fates)
    (hgiven : Given oldMethods newMethods) : (methods.map Method.key).Nodup :=
  (perm_key_of_perm_body h.body).nodup_iff.mpr hgiven.newKeys

theorem Found.body_mem (h : Found oldMethods newMethods methods oi ni fates) (hm : m ∈ methods) :
    m.body ∈ newMethods.map Method.body :=
  h.body.mem_iff.mp (List.mem_map_of_mem hm)

/-- An old method in front of the cursor has no partner from the other cursor on. -/
theorem Found.old_front (h : Found oldMethods newMethods methods oi ni fates)
    (hgiven : Given oldMethods newMethods) (hm : methods[ni]? = some m) :
    m.key ∉ (oldMethods.take oi).map Method.key := by
  intro hmem
  rw [← h.oldKeys, List.mem_filterMap] at hmem
  obtain ⟨f, hf, hkey⟩ := hmem
  have hcorrect := h.correct f hf
  cases f with
  | matched o p =>
    refine key_not_mem_take (h.keys_nodup hgiven) hm ?_
    rw [← h.newKeys, List.mem_filterMap]
    refine ⟨_, hf, ?_⟩
    rw [← hkey]
    exact congrArg some hcorrect.2.2.symm
  | added p => cases hkey
  | deleted o =>
    have hkey' : o.key = m.key := Option.some.inj hkey
    exact hcorrect.2 (hkey' ▸ key_mem_of_body_mem (h.body_mem (List.mem_of_getElem? hm)))

theorem Found.new_front (h : Found oldMethods newMethods methods oi ni fates)
    (hgiven : Given oldMethods newMethods) (hold : oldMethods[oi]? = some old) :
    old.key ∉ (methods.take ni).map Method.key := by
  intro hmem
  rw [← h.newKeys, List.mem_filterMap] at hmem
  obtain ⟨f, hf, hkey⟩ := hmem
  have hcorrect := h.correct f hf
  cases f with
  | matched o p =>
    refine key_not_mem_take hgiven.oldKeys hold ?_
    rw [← h.oldKeys, List.mem_filterMap]
    refine ⟨_, hf, ?_⟩
    rw [← hkey]
    exact congrArg some hcorrect.2.2
  | added p =>
    have hkey' : p.key = old.key := Option.some.inj hkey
    exact hcorrect.2 (hkey' ▸ List.mem_map_of_mem (List.mem_of_getElem? hold))
  | deleted o => cases hkey

theorem name_le_of_mem_drop {l : List (Method Name Sig)}
    (hsorted : (l.map Method.name).Pairwise (· ≤ ·)) {i : Nat} (hm : l[i]? = some m)
    {p : Method Name Sig} (hp : p ∈ l.drop i) : m.name ≤ p.name := by
  obtain ⟨hi, rfl⟩ := List.getElem?_eq_some_iff.mp hm
  rw [List.drop_eq_getElem_cons hi] at hp
  have hsub : ((l.drop i).map Method.name).Pairwise (· ≤ ·) :=
    hsorted.sublist ((List.drop_sublist i l).map _)
  rw [List.drop_eq_getElem_cons hi, List.map_cons, List.pairwise_cons] at hsub
  rcases List.mem_cons.mp hp with rfl | hp
  · exact le_refl _
  · exact hsub.1 _ (List.mem_map_of_mem hp)

theorem Found.added (h : Found oldMethods newMethods methods oi ni fates)
    (hgiven : Given oldMethods newMethods) (hm : methods[ni]? = some m)
    (hbehind : ∀ o ∈ oldMethods.drop oi, m.name < o.name) :
    (Fate.added m).Correct oldMethods newMethods := by
  refine ⟨h.body_mem (List.mem_of_getElem? hm), fun hmem => ?_⟩
  rcases mem_take_or_drop hmem oi with hfront | ⟨o, ho, hkey⟩
  · exact h.old_front hgiven hm hfront
  · exact ne_of_gt (hbehind o ho) (congrArg Prod.fst hkey)

theorem Found.deleted (h : Found oldMethods newMethods methods oi ni fates)
    (hgiven : Given oldMethods newMethods) (hold : oldMethods[oi]? = some old)
    (hbehind : ∀ p ∈ methods.drop ni, old.key ≠ p.key) :
    (Fate.deleted old).Correct oldMethods newMethods := by
  refine ⟨List.mem_of_getElem? hold, fun hmem => ?_⟩
  have hkey := (perm_key_of_perm_body h.body).mem_iff.mpr hmem
  rcases mem_take_or_drop hkey ni with hfront | ⟨p, hp, hkey⟩
  · exact h.new_front hgiven hold hfront
  · exact hbehind p hp hkey.symm

variable [DecidableEq Sig]

/-- The search finds the overload with the same signature. -/
theorem searchForward_some {rest : List (Method Name Sig)} {nj nj' : Nat}
    (h : searchForward old rest nj = some (nj', m)) :
    nj ≤ nj' ∧ rest[nj' - nj]? = some m ∧ old.key = m.key := by
  induction rest generalizing nj with
  | nil => cases h
  | cons p rest ih =>
    unfold searchForward at h
    split at h
    next => cases h
    next hname =>
      split at h
      next hsig =>
        obtain ⟨rfl, rfl⟩ := Prod.mk.inj (Option.some.inj h)
        exact ⟨Nat.le_refl nj, by simp, Prod.ext (not_not.mp hname) hsig⟩
      next =>
        obtain ⟨hle, hm, hkey⟩ := ih h
        refine ⟨Nat.le_of_succ_le hle, ?_, hkey⟩
        rw [show nj' - nj = nj' - (nj + 1) + 1 by omega]
        exact hm

/-- Where it fails, there is none behind in the order of names. -/
theorem searchForward_none {rest : List (Method Name Sig)} {nj : Nat}
    (hsorted : (rest.map Method.name).Pairwise (· ≤ ·)) (hle : ∀ m ∈ rest, old.name ≤ m.name)
    (h : searchForward old rest nj = none) : ∀ m ∈ rest, old.key ≠ m.key := by
  induction rest generalizing nj with
  | nil => exact fun m hm => absurd hm List.not_mem_nil
  | cons p rest ih =>
    rw [List.map_cons, List.pairwise_cons] at hsorted
    unfold searchForward at h
    split at h
    next hname =>
      intro m hm hkey
      have hsame : old.name = m.name := congrArg Prod.fst hkey
      rcases List.mem_cons.mp hm with rfl | hm
      · exact hname hsame
      · have hbehind := hsorted.1 m.name (List.mem_map_of_mem hm)
        exact hname (le_antisymm (hle p List.mem_cons_self) (hsame ▸ hbehind))
    next hname =>
      split at h
      next => cases h
      next hsig =>
        intro m hm hkey
        rcases List.mem_cons.mp hm with rfl | hm
        · exact hsig (congrArg Prod.snd hkey)
        · exact ih hsorted.2 (fun m hm => hle m (List.mem_cons_of_mem _ hm)) h m hm hkey

/-- Where the methods with a fate are. -/
def Fate.AtCursors (oldMethods methods : List (Method Name Sig)) (oi ni : Nat) :
    Fate Name Sig → Prop
  | .matched old new => oldMethods[oi]? = some old ∧ methods[ni]? = some new
  | .added new => methods[ni]? = some new
  | .deleted old => oldMethods[oi]? = some old

/-- The fate at the cursors is the right one. -/
theorem fate_spec (h : Found oldMethods newMethods methods oi ni fates)
    (hgiven : Given oldMethods newMethods) {found : Fate Name Sig}
    {methods' : List (Method Name Sig)}
    (hfate : fate oldMethods methods oi ni = some (found, methods')) :
    found.Correct oldMethods newMethods ∧ found.AtCursors oldMethods methods' oi ni ∧
      methods'.Perm methods ∧ methods'.map Method.name = methods.map Method.name ∧
      methods'.take ni = methods.take ni := by
  unfold fate at hfate
  split at hfate
  next => cases hfate
  next m hold hm =>
    obtain ⟨rfl, rfl⟩ := Prod.mk.inj (Option.some.inj hfate)
    refine ⟨h.added hgiven hm fun o ho => ?_, hm, .refl _, rfl, rfl⟩
    rw [List.drop_eq_nil_of_le (List.getElem?_eq_none_iff.mp hold)] at ho
    exact absurd ho List.not_mem_nil
  next o hold hm =>
    obtain ⟨rfl, rfl⟩ := Prod.mk.inj (Option.some.inj hfate)
    refine ⟨h.deleted hgiven hold fun p hp => ?_, hold, .refl _, rfl, rfl⟩
    rw [List.drop_eq_nil_of_le (List.getElem?_eq_none_iff.mp hm)] at hp
    exact absurd hp List.not_mem_nil
  next o m hold hm =>
    split at hfate
    next hname =>
      split at hfate
      next hlt =>
        obtain ⟨rfl, rfl⟩ := Prod.mk.inj (Option.some.inj hfate)
        refine ⟨h.added hgiven hm fun p hp => ?_, hm, .refl _, rfl, rfl⟩
        exact lt_of_lt_of_le hlt (name_le_of_mem_drop hgiven.oldSorted hold hp)
      next hge =>
        obtain ⟨rfl, rfl⟩ := Prod.mk.inj (Option.some.inj hfate)
        refine ⟨h.deleted hgiven hold fun p hp hkey => ?_, hold, .refl _, rfl, rfl⟩
        have hbehind := name_le_of_mem_drop h.sorted hm hp
        have hsame : o.name = p.name := congrArg Prod.fst hkey
        exact hname (le_antisymm (not_lt.mp hge) (hsame ▸ hbehind))
    next hname =>
      have hname := not_not.mp hname
      split at hfate
      next hsig =>
        obtain ⟨rfl, rfl⟩ := Prod.mk.inj (Option.some.inj hfate)
        exact ⟨⟨List.mem_of_getElem? hold, h.body_mem (List.mem_of_getElem? hm),
          Prod.ext hname hsig⟩, ⟨hold, hm⟩, .refl _, rfl, rfl⟩
      next hsig =>
        split at hfate
        next nj p hsearch =>
          obtain ⟨rfl, rfl⟩ := Prod.mk.inj (Option.some.inj hfate)
          obtain ⟨hle, hp, hkey⟩ := searchForward_some hsearch
          rw [List.getElem?_drop, show ni + 1 + (nj - (ni + 1)) = nj by omega] at hp
          obtain ⟨hperm, hnames, htake, hplace⟩ := swap_spec hm hp hle
            (hname.symm.trans (congrArg Prod.fst hkey))
          exact ⟨⟨List.mem_of_getElem? hold, h.body_mem (List.mem_of_getElem? hp), hkey⟩,
            ⟨hold, hplace⟩, hperm, hnames, htake⟩
        next hsearch =>
          obtain ⟨rfl, rfl⟩ := Prod.mk.inj (Option.some.inj hfate)
          refine ⟨h.deleted hgiven hold fun p hp => ?_, hold, .refl _, rfl, rfl⟩
          obtain ⟨hi, rfl⟩ := List.getElem?_eq_some_iff.mp hm
          rw [List.drop_eq_getElem_cons hi] at hp
          rcases List.mem_cons.mp hp with rfl | hp
          · exact fun hkey => hsig (congrArg Prod.snd hkey)
          · refine searchForward_none (h.sorted.sublist ((List.drop_sublist _ _).map _)) ?_ hsearch
              p hp
            intro q hq
            rw [hname]
            refine name_le_of_mem_drop h.sorted hm ?_
            rw [List.drop_eq_getElem_cons hi]
            exact List.mem_cons_of_mem _ hq

theorem fate_none (h : fate oldMethods methods oi ni = none) :
    oldMethods.length ≤ oi ∧ methods.length ≤ ni := by
  unfold fate at h
  split at h
  next hold hm => exact ⟨List.getElem?_eq_none_iff.mp hold, List.getElem?_eq_none_iff.mp hm⟩
  next => cases h
  next => cases h
  next =>
    split at h
    · split at h <;> cases h
    · split at h
      · cases h
      · split at h <;> cases h

end

end HotSpot.RedefineClasses
