import HotSpot.Oops.Hierarchy

/-! # Checking dependencies

The search for a class that breaks a dependency: over everything below the context
type, or only at a class that was just loaded.
-/

namespace HotSpot

open ClassFileParser

/-- A method, with the class that holds it. -/
structure MethodOop where
  holder : Nat
  decl : MethodDecl
  deriving DecidableEq, Repr

/-- `instanceKlass::find_method`: what the class itself declares. -/
def Hierarchy.findMethod (H : Hierarchy) (k : Nat) (name signature : Bytes) : Option MethodOop :=
  ((H.klass k).methods.find? fun m => m.name == name && m.signature == signature).map
    (MethodOop.mk k)

namespace Dependencies

def isConcreteKlass (H : Hierarchy) (k : Nat) : Bool := !(H.klass k).isAbstract

def isConcreteMethod (m : MethodOop) : Bool := !m.decl.isAbstract

end Dependencies

open Dependencies

/-! ## Changes -/

namespace DepChange

inductive ChangeType where
  | noChange
  | newType
  | newSub
  | newImpl
  | startKlass
  deriving DecidableEq, Repr

structure ContextStream where
  changeType : ChangeType
  klass : Option Nat
  tiBase : List Nat
  tiIndex : Nat
  tiLimit : Nat
  deriving DecidableEq, Repr

namespace ContextStream

def start (newType : Nat) : ContextStream := ⟨.startKlass, some newType, [], 0, 0⟩

def nextImpl (str : ContextStream) : Bool × ContextStream :=
  if str.tiIndex < str.tiLimit then
    (true, { str with klass := str.tiBase[str.tiIndex]?, tiIndex := str.tiIndex + 1 })
  else (false, { str with changeType := .noChange })

def nextSub (H : Hierarchy) (str : ContextStream) : Bool × ContextStream :=
  let klass := str.klass.bind fun k => (H.klass k).super
  match klass with
  | some _ => (true, { str with klass := klass, changeType := .newSub })
  | none =>
    nextImpl { str with klass := none, tiLimit := str.tiBase.length, changeType := .newImpl }

def next (H : Hierarchy) (str : ContextStream) : Bool × ContextStream :=
  match str.changeType with
  | .startKlass =>
    (true, { str with
      tiBase := (str.klass.map fun k => (H.klass k).transitiveInterfaces).getD []
      tiIndex := 0
      changeType := .newType })
  | .newType => nextSub H str
  | .newSub => nextSub H str
  | .newImpl => nextImpl str
  | .noChange => (false, str)

/-- The classes the stream stops at, if it ends within so many steps. -/
def klasses (H : Hierarchy) : Nat → ContextStream → Option (List Nat)
  | 0, _ => none
  | fuel + 1, str =>
    match str.next H with
    | (true, str) => (klasses H fuel str).map (str.klass.toList ++ ·)
    | (false, _) => some []

end ContextStream

end DepChange

/-- A class that was just loaded, with the classes that were marked for it. -/
structure DepChange where
  newType : Nat
  marked : List Nat
  deriving DecidableEq, Repr

namespace DepChange

/-- `DepChange::initialize` -/
def mark (H : Hierarchy) (newType : Nat) : Option DepChange :=
  (ContextStream.klasses H (H.count + (H.klass newType).transitiveInterfaces.length + 2)
    (.start newType)).map (DepChange.mk newType)

def involvesContext (changes : DepChange) (k : Nat) : Bool := changes.marked.contains k

end DepChange

/-! ## The walker -/

structure ClassHierarchyWalker where
  /-- The name and signature to look for, in a search for methods. -/
  descriptor : Option (Bytes × Bytes)
  /-- Classes which are not allowed to be witnesses. -/
  participants : List Nat
  foundMethods : Nat → Option MethodOop
  /-- How many witnesses to convert to participants. -/
  recordWitnesses : Nat

/-- What a test of a class says: to leave it out with all that is below it, to go on
below it, or that it is a witness. -/
inductive Finding where
  | hidden
  | search
  | witness
  deriving DecidableEq, Repr

namespace ClassHierarchyWalker

def ofSubtypes : ClassHierarchyWalker := ⟨none, [], fun _ => none, 0⟩

def ofMethod (m : MethodOop) : ClassHierarchyWalker :=
  ⟨some (m.decl.name, m.decl.signature), [], fun _ => none, 0⟩

def addParticipant (w : ClassHierarchyWalker) (participant : Nat) : ClassHierarchyWalker :=
  { w with
    participants := w.participants ++ [participant]
    foundMethods := Function.update w.foundMethods (w.participants.length + 1) none }

def isWitness (w : ClassHierarchyWalker) (H : Hierarchy) (k : Nat) : Bool :=
  match w.descriptor with
  | none => isConcreteKlass H k
  | some (name, signature) =>
    match H.findMethod k name signature with
    | none => false
    | some m => isConcreteMethod m

/-- A class that is a witness leaves its method behind. -/
def memoize (w : ClassHierarchyWalker) (H : Hierarchy) (k : Nat) : ClassHierarchyWalker :=
  match w.descriptor with
  | none => w
  | some (name, signature) =>
    { w with
      foundMethods := Function.update w.foundMethods w.participants.length
        (H.findMethod k name signature) }

def ignoreWitness (w : ClassHierarchyWalker) (witness : Nat) : Bool × ClassHierarchyWalker :=
  if w.recordWitnesses = 0 then (false, w)
  else (true, { w with recordWitnesses := w.recordWitnesses - 1 }.addParticipant witness)

/-- What both searches do first with a class. -/
def test (H : Hierarchy) (hide : Bool) (w : ClassHierarchyWalker) (k : Nat) :
    Finding × ClassHierarchyWalker :=
  if k ∈ w.participants then (if hide then .hidden else .search, w)
  else if w.isWitness H k then
    let (ignored, w) := (w.memoize H k).ignoreWitness k
    (if ignored then .search else .witness, w)
  else (.search, w)

/-- `ClassHierarchyWalker::find_witness_in` -/
def findWitnessIn (w : ClassHierarchyWalker) (H : Hierarchy) (changes : DepChange) (context : Nat)
    (hide : Bool) : Option Nat :=
  if 1 < (H.klass context).nofImplementors then some context
  else if hide && w.participants.any changes.involvesContext then none
  else if w.isWitness H changes.newType &&
      !((w.memoize H changes.newType).ignoreWitness changes.newType).1 then
    some changes.newType
  else none

/-! ## The walk -/

section Walk

variable (H : Hierarchy) (hide : Bool)

/-- `ADD_SUBCLASS_CHAIN` -/
def addSubclassChain (k : Nat) (chains : List Nat) : List Nat :=
  (H.klass k).subklass.toList ++ chains

/-- The loop over the implementors of the context, from an index on. A class to return
ends it. -/
def testImplementors (context : Nat) :
    List Nat → ClassHierarchyWalker → List Nat → Option Nat × ClassHierarchyWalker × List Nat
  | [], w, chains => (none, w, chains)
  | i :: is, w, chains =>
    match (H.klass context).implementors[i]? with
    | none => (some context, w, chains)
    | some impl =>
      match w.test H hide impl with
      | (.hidden, w) => testImplementors context is w chains
      | (.witness, w) => (some impl, w, chains)
      | (.search, w) => testImplementors context is w (addSubclassChain H impl chains)

/-- What the search does below a context type that was tested, given how it works off its
list of chains. -/
def searchBelow
    (walk : ClassHierarchyWalker → Option Nat → List Nat →
      Option (Option Nat × ClassHierarchyWalker))
    (w : ClassHierarchyWalker) (context : Nat) : Option (Option Nat × ClassHierarchyWalker) :=
  let chains := addSubclassChain H context []
  let nofImpls := (H.klass context).nofImplementors
  if 1 < nofImpls then some (some context, w)
  else
    match testImplementors H hide context (List.range nofImpls) w chains with
    | (some witness, w, _) => some (some witness, w)
    | (none, w, chains) => walk w none chains

/-- The loop over the chains, with the place in the current one. When there are too many
of them, a class is searched by a call of its own. -/
def walk (chainMax : Nat) : Nat → ClassHierarchyWalker → Option Nat → List Nat →
    Option (Option Nat × ClassHierarchyWalker)
  | 0, _, _, _ => none
  | _ + 1, w, none, [] => some (none, w)
  | fuel + 1, w, none, chain :: chains => walk chainMax fuel w (some chain) chains
  | fuel + 1, w, some sub, chains =>
    match w.test H hide sub with
    | (.hidden, w) => walk chainMax fuel w (H.klass sub).nextSibling chains
    | (.witness, w) => some (some sub, w)
    | (.search, w) =>
      if chains.length < chainMax then
        walk chainMax fuel w (H.klass sub).nextSibling (addSubclassChain H sub chains)
      else
        match searchBelow H hide (walk chainMax fuel) w sub with
        | none => none
        | some (some witness, w) => some (some witness, w)
        | some (none, w) => walk chainMax fuel w (H.klass sub).nextSibling chains

/-- `CHAINMAX`, which `VerifyDependencies` partially disables. -/
def chainMax (verifyDependencies : Bool) : Nat := if verifyDependencies then 2 else 100

/-- `ClassHierarchyWalker::find_witness_anywhere`, with the walker it leaves. -/
def findWitnessAnywhere (verify : Bool) (w : ClassHierarchyWalker) (context : Nat) :
    Option (Option Nat × ClassHierarchyWalker) :=
  match w.test H hide context with
  | (.hidden, w) => some (none, w)
  | (.witness, w) => some (some context, w)
  | (.search, w) => searchBelow H hide (walk H hide (chainMax verify) (2 ^ (H.count + 1))) w context

end Walk

variable (H : Hierarchy) (verify : Bool)

def findWitnessSubtype (w : ClassHierarchyWalker) (context : Nat) (changes : Option DepChange) :
    Option (Option Nat) :=
  match changes with
  | some changes => some (w.findWitnessIn H changes context true)
  | none => (findWitnessAnywhere H true verify w context).map Prod.fst

def findWitnessDefiner (w : ClassHierarchyWalker) (context : Nat) (changes : Option DepChange) :
    Option (Option Nat) :=
  match changes with
  | some changes => some (w.findWitnessIn H changes context false)
  | none => (findWitnessAnywhere H false verify w context).map Prod.fst

end ClassHierarchyWalker

/-! ## The dependencies

A check gives the class that breaks the dependency, if there is one. -/

namespace Dependencies

open ClassHierarchyWalker

/-- A class at or after a place among siblings that has a finalizer, or one below it. -/
def findFinalizableSibling (H : Hierarchy) : Nat → Option Nat → Option (Option Nat)
  | 0, _ => none
  | _ + 1, none => some none
  | fuel + 1, some k =>
    let result :=
      if (H.klass k).isInterface then some none
      else if (H.klass k).hasFinalizer then some (some k)
      else findFinalizableSibling H fuel (H.klass k).subklass
    match result with
    | some none => findFinalizableSibling H fuel (H.klass k).nextSibling
    | result => result

/-- `Dependencies::find_finalizable_subclass` -/
def findFinalizableSubclass (H : Hierarchy) (k : Nat) : Option (Option Nat) :=
  if (H.klass k).isInterface then some none
  else if (H.klass k).hasFinalizer then some (some k)
  else findFinalizableSibling H (2 ^ (H.count + 1)) (H.klass k).subklass

section Checks

variable (H : Hierarchy) (verify : Bool)

def checkLeafType (ctxk : Nat) : Option Nat :=
  match (H.klass ctxk).subklass with
  | some sub => some sub
  | none =>
    if (H.klass ctxk).nofImplementors ≠ 0 then
      match (H.klass ctxk).implementors[0]? with
      | some impl => some impl
      | none => some ctxk
    else none

def checkAbstractWithUniqueConcreteSubtype (ctxk conck : Nat) (changes : Option DepChange) :
    Option (Option Nat) :=
  (ofSubtypes.addParticipant conck).findWitnessSubtype H verify ctxk changes

def checkAbstractWithNoConcreteSubtype (ctxk : Nat) (changes : Option DepChange) :
    Option (Option Nat) :=
  ofSubtypes.findWitnessSubtype H verify ctxk changes

def checkConcreteWithNoConcreteSubtype (ctxk : Nat) (changes : Option DepChange) :
    Option (Option Nat) :=
  (ofSubtypes.addParticipant ctxk).findWitnessSubtype H verify ctxk changes

def checkAbstractWithExclusiveConcreteSubtypes (ctxk k1 k2 : Nat) (changes : Option DepChange) :
    Option (Option Nat) :=
  ((ofSubtypes.addParticipant k1).addParticipant k2).findWitnessSubtype H verify ctxk changes

def checkUniqueConcreteMethod (ctxk : Nat) (uniqm : MethodOop) (changes : Option DepChange) :
    Option (Option Nat) :=
  ((ofMethod uniqm).addParticipant uniqm.holder).findWitnessDefiner H verify ctxk changes

/-- The only method that matches `m` under the context, if there is just one. -/
def findUniqueConcreteMethod (ctxk : Nat) (m : MethodOop) : Option (Option MethodOop) :=
  match findWitnessAnywhere H false verify { ofMethod m with recordWitnesses := 1 } ctxk with
  | none => none
  | some (some _, _) => some none
  | some (none, wf) =>
    let fm := wf.foundMethods 0
    if isConcreteMethod m then
      match fm with
      | none => some (some m)
      | some fm => if fm ≠ m then some none else some (some fm)
    else some fm

def checkExclusiveConcreteMethods (ctxk : Nat) (m1 m2 : MethodOop) (changes : Option DepChange) :
    Option (Option Nat) :=
  (((ofMethod m1).addParticipant m1.holder).addParticipant m2.holder).findWitnessDefiner H verify
    ctxk changes

def checkHasNoFinalizableSubclasses (ctxk : Nat) (changes : Option DepChange) :
    Option (Option Nat) :=
  let searchAt := match changes with
    | some changes => changes.newType
    | none => ctxk
  findFinalizableSubclass H searchAt

end Checks

end Dependencies

/-- A dependency on the class hierarchy, as it is read back: the context first. -/
inductive Dependency where
  | leafType (ctxk : Nat)
  | abstractWithUniqueConcreteSubtype (ctxk conck : Nat)
  | abstractWithNoConcreteSubtype (ctxk : Nat)
  | concreteWithNoConcreteSubtype (ctxk : Nat)
  | uniqueConcreteMethod (ctxk : Nat) (uniqm : MethodOop)
  | abstractWithExclusiveConcreteSubtypes (ctxk k1 k2 : Nat)
  | exclusiveConcreteMethods (ctxk : Nat) (m1 m2 : MethodOop)
  | noFinalizableSubclasses (ctxk : Nat)
  deriving DecidableEq, Repr

namespace Dependency

def contextType : Dependency → Nat
  | leafType ctxk => ctxk
  | abstractWithUniqueConcreteSubtype ctxk _ => ctxk
  | abstractWithNoConcreteSubtype ctxk => ctxk
  | concreteWithNoConcreteSubtype ctxk => ctxk
  | uniqueConcreteMethod ctxk _ => ctxk
  | abstractWithExclusiveConcreteSubtypes ctxk _ _ => ctxk
  | exclusiveConcreteMethods ctxk _ _ => ctxk
  | noFinalizableSubclasses ctxk => ctxk

/-- `DepStream::check_dependency_impl` -/
def checkDependencyImpl (H : Hierarchy) (verify : Bool) (changes : Option DepChange) :
    Dependency → Option (Option Nat)
  | leafType ctxk => some (checkLeafType H ctxk)
  | abstractWithUniqueConcreteSubtype ctxk conck =>
    checkAbstractWithUniqueConcreteSubtype H verify ctxk conck changes
  | abstractWithNoConcreteSubtype ctxk => checkAbstractWithNoConcreteSubtype H verify ctxk changes
  | concreteWithNoConcreteSubtype ctxk => checkConcreteWithNoConcreteSubtype H verify ctxk changes
  | uniqueConcreteMethod ctxk uniqm => checkUniqueConcreteMethod H verify ctxk uniqm changes
  | abstractWithExclusiveConcreteSubtypes ctxk k1 k2 =>
    checkAbstractWithExclusiveConcreteSubtypes H verify ctxk k1 k2 changes
  | exclusiveConcreteMethods ctxk m1 m2 =>
    checkExclusiveConcreteMethods H verify ctxk m1 m2 changes
  | noFinalizableSubclasses ctxk => checkHasNoFinalizableSubclasses H ctxk changes

def checkDependency (H : Hierarchy) (verify : Bool) (dep : Dependency) : Option (Option Nat) :=
  dep.checkDependencyImpl H verify none

def spotCheckDependencyAt (H : Hierarchy) (verify : Bool) (changes : DepChange)
    (dep : Dependency) : Option (Option Nat) :=
  if !changes.involvesContext dep.contextType then some none
  else dep.checkDependencyImpl H verify (some changes)

end Dependency

end HotSpot
