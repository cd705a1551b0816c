import HotSpot.Classfile.Assignable
import HotSpot.Oops.Hierarchy

/-! # The subtype check

Each klass keeps a display of its first superclasses, indexed by their depth, and a list of
the supertypes that have no place in a display: interfaces, and classes that are too deep.
A subtype check is one load from the place that the supertype asks for, which is its entry
of the display, or the cache of the last secondary supertype that was found.
-/

namespace HotSpot

inductive KlassOop where
  | instanceKlass (k : Nat)
  | typeArrayKlass (elementType : PrimitiveType)
  | objArrayKlass (elementKlass : KlassOop)
  deriving DecidableEq, Repr

namespace KlassOop

def objectKlass : KlassOop := instanceKlass 0

/-- `objArrayKlass::bottom_klass`, and a klass itself where there is no such field. -/
def bottomKlass : KlassOop → KlassOop
  | objArrayKlass x => bottomKlass x
  | r => r

/-- How many times `objArrayKlass` was applied. -/
def dimension : KlassOop → Nat
  | objArrayKlass x => dimension x + 1
  | _ => 0

end KlassOop

/-- `super_check_offset`: the place that a subtype check of this klass loads from. -/
inductive SuperCheck where
  | primarySuper (depth : Nat)
  | secondarySuperCache
  deriving DecidableEq, Repr

/-- What a klass knows of its supertypes. -/
structure KlassSupers where
  super : Option KlassOop
  superCheckOffset : SuperCheck
  primarySupers : Nat → Option KlassOop
  secondarySupers : Option (List KlassOop)
  secondarySuperCache : Option KlassOop

/-- The klasses that were allocated, over the classes of a hierarchy. -/
structure KlassTable where
  supers : KlassOop → KlassSupers
  created : KlassOop → Bool

/-- `_primary_super_limit` -/
def primarySuperLimit : Nat := 8

/-- The classes that arrays refer to, in the hierarchy of all classes. -/
structure SystemDictionary where
  classes : Hierarchy
  cloneableKlass : Nat
  serializableKlass : Nat

namespace KlassSupers

/-- What `base_create_klass_oop` fills in. -/
def preinitialized (r : KlassOop) : KlassSupers where
  super := none
  superCheckOffset := .primarySuper 0
  primarySupers i := if i = 0 then some r else none
  secondarySupers := none
  secondarySuperCache := none

variable (S : KlassSupers)

def canBePrimarySuper : Bool := S.superCheckOffset ≠ .secondarySuperCache

/-- Returns number of primary supers; may be a number up to the limit. -/
def superDepth : Nat :=
  match S.superCheckOffset with
  | .primarySuper depth => depth
  | .secondarySuperCache => primarySuperLimit

/-- What is stored at an offset. -/
def load : SuperCheck → Option KlassOop
  | .primarySuper depth => S.primarySupers depth
  | .secondarySuperCache => S.secondarySuperCache

end KlassSupers

namespace KlassTable

variable (D : SystemDictionary) (T : KlassTable)

def update (r : KlassOop) (f : KlassSupers → KlassSupers) : KlassTable :=
  { T with supers := Function.update T.supers r (f (T.supers r)) }

/-! ## Initialization -/

/-- `Klass::can_be_primary_super_slow` -/
def chainFits (r : KlassOop) : Bool :=
  match (T.supers r).super with
  | none => true
  | some super => !decide ((T.supers super).superDepth ≥ primarySuperLimit - 1)

def canBePrimarySuperSlow (r : KlassOop) : Bool :=
  match r with
  | .instanceKlass k => if (D.classes.klass k).isInterface then false else T.chainFits r
  | .typeArrayKlass _ => T.chainFits r
  | .objArrayKlass _ =>
    if !(T.supers r.bottomKlass).canBePrimarySuper then false else T.chainFits r

/-- The display and the offset, once the superclass is known. -/
def initializeDisplay (r super : KlassOop) : KlassTable :=
  let T := T.update r fun S => { S with super := some super }
  let sup := T.supers super
  let myDepth := min (sup.superDepth + 1) primarySuperLimit
  let myDepth := if !T.canBePrimarySuperSlow D r then primarySuperLimit else myDepth
  let T := T.update r fun S => { S with
    primarySupers := fun i => if i < myDepth then sup.primarySupers i else S.primarySupers i }
  if myDepth < primarySuperLimit then
    T.update r fun S => { S with
      primarySupers := Function.update S.primarySupers myDepth (some r)
      superCheckOffset := .primarySuper myDepth }
  else
    -- Overflow of the display forces this klass to be secondary.
    T.update r fun S => { S with superCheckOffset := .secondarySuperCache }

/-- The classes on the chain of superclasses that are not in a display, down to a depth. -/
def overflow : Nat → Option KlassOop → List KlassOop
  | 0, _ => []
  | _ + 1, none => []
  | depth + 1, some p =>
    if (T.supers p).canBePrimarySuper then [] else p :: overflow depth (T.supers p).super

/-- `Universe::the_array_interfaces_array` -/
def arrayInterfaces : List KlassOop :=
  [.instanceKlass D.cloneableKlass, .instanceKlass D.serializableKlass]

/-- `compute_secondary_supers`, without the extra slots. -/
def computeSecondarySupers : KlassOop → List KlassOop
  | .instanceKlass k => (D.classes.klass k).transitiveInterfaces.map .instanceKlass
  | .typeArrayKlass _ => arrayInterfaces D
  | .objArrayKlass x =>
    arrayInterfaces D ++ ((T.supers x).secondarySupers.getD []).map .objArrayKlass

/-- The extra secondaries go in front, the last one first, unless they are duplicates. -/
def secondariesOf (r : KlassOop) : List KlassOop :=
  let extras := T.overflow (D.classes.count + r.dimension + 1) (T.supers r).super
  let secondaries := T.computeSecondarySupers D r
  (extras.filter (· ∉ secondaries)).reverse ++ secondaries

/-- `Klass::initialize_supers` -/
def initializeSupers (r : KlassOop) (k : Option KlassOop) : KlassTable :=
  let T := match k with
    | none => T.update r fun S => { S with
        super := none
        primarySupers := Function.update S.primarySupers 0 (some r) }
    | some super =>
      if some super ≠ (T.supers r).super ∨ super = KlassOop.objectKlass then
        T.initializeDisplay D r super
      else T
  if (T.supers r).secondarySupers = none then
    T.update r fun S => { S with secondarySupers := some (T.secondariesOf D r) }
  else T

/-- The superclass that a klass is created with. -/
def superKlass : KlassOop → Option KlassOop
  | .instanceKlass k => (D.classes.klass k).super.map .instanceKlass
  | .typeArrayKlass _ => some KlassOop.objectKlass
  | .objArrayKlass x =>
    match (T.supers x).super with
    | some elementSuper => some (.objArrayKlass elementSuper)
    | none => some KlassOop.objectKlass

/-- Allocate a klass, and initialize its supers. -/
def create (r : KlassOop) : KlassTable :=
  { T.initializeSupers D r (T.superKlass D r) with
    created := fun t => decide (t = r) || T.created t }

/-! ## Checks -/

def searchSecondarySupers (s k : KlassOop) : Bool × KlassTable :=
  if s = k then (true, T)
  else if ((T.supers s).secondarySupers.getD []).contains k then
    (true, T.update s fun S => { S with secondarySuperCache := some k })
  else (false, T)

/-- `Klass::is_subtype_of` -/
def isSubtypeOf (s k : KlassOop) : Bool × KlassTable :=
  let off := (T.supers k).superCheckOffset
  let sup := (T.supers s).load off
  if sup = some k then (true, T)
  else if off ≠ .secondarySuperCache then (false, T)
  else T.searchSecondarySupers s k

/-- Nothing was allocated. -/
def empty : KlassTable where
  supers := KlassSupers.preinitialized
  created _ := false

end KlassTable

/-! ## Subtypes -/

namespace SystemDictionary

variable (D : SystemDictionary)

/-- The subtypes of the language: those that the classes declare, and those of arrays. -/
def IsSubtype : KlassOop → KlassOop → Prop
  | .instanceKlass c, .instanceKlass t => D.classes.IsSubtype c t
  | .typeArrayKlass p, .typeArrayKlass q => p = q
  | .objArrayKlass x, .objArrayKlass y => IsSubtype x y
  | .typeArrayKlass _, .instanceKlass t | .objArrayKlass _, .instanceKlass t =>
    t = 0 ∨ t = D.cloneableKlass ∨ t = D.serializableKlass
  | _, _ => False

/-- The klass of a class that is loaded, or an array over one. -/
def Names (r : KlassOop) : Prop :=
  ∀ k, r.bottomKlass = .instanceKlass k → k < D.classes.count

/-- What is known of the classes. -/
structure Bootstrapped : Prop where
  loaded : D.classes.Loaded
  cloneable : D.cloneableKlass < D.classes.count ∧
    (D.classes.klass D.cloneableKlass).isInterface = true
  serializable : D.serializableKlass < D.classes.count ∧
    (D.classes.klass D.serializableKlass).isInterface = true

end SystemDictionary

namespace KlassTable

variable (D : SystemDictionary)

/-- A klass can be allocated when its supertypes and the element of an array were. -/
structure Creatable (T : KlassTable) (r : KlassOop) : Prop where
  names : D.Names r
  new : T.created r = false
  supertypes : ∀ t, D.IsSubtype r t → t ≠ r → T.created t = true
  element : ∀ x, r = .objArrayKlass x → T.created x = true

/-- The tables that any order of allocations and checks can lead to. -/
inductive Reachable : KlassTable → Prop where
  | empty : Reachable empty
  | create {T : KlassTable} {r : KlassOop} (h : Reachable T) (hr : T.Creatable D r) :
      Reachable (T.create D r)
  | check {T : KlassTable} (s k : KlassOop) (h : Reachable T) (hs : T.created s = true)
      (hk : T.created k = true) : Reachable (T.isSubtypeOf s k).2

end KlassTable

end HotSpot
