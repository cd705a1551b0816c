import HotSpot.Classfile.Signature
import Mathlib

/-! # The vtable of a class

`klassVtable.cpp`. The length of a vtable is computed when the class is loaded, and the vtable is
filled in when the class is linked, after its superclass.
-/

/-! ## Loaded classes

What `instanceKlass` knows of a class when it has been loaded: its superclass, its interfaces and
its methods, and the searches in them.
-/

namespace HotSpot

open ClassFileParser

inductive Access where
  | private_ | packagePrivate | protected_ | public_
  deriving DecidableEq, Repr

/-- A larger number is accessible from more places. -/
def Access.level : Access → Nat
  | private_ => 0
  | packagePrivate => 1
  | protected_ => 2
  | public_ => 3

/-- `methodOopDesc`. `K` stands for the classes. -/
structure Method (K : Type) where
  holder : K
  name : Bytes
  signature : Bytes
  access : Access
  isStatic : Bool
  isFinal : Bool
  deriving DecidableEq, Repr

namespace Method

variable {K : Type}

/-- Name and signature match. -/
def Matches (m m' : Method K) : Prop := m.name = m'.name ∧ m.signature = m'.signature

instance (m m' : Method K) : Decidable (m.Matches m') := inferInstanceAs (Decidable (_ ∧ _))

theorem Matches.symm {m m' : Method K} (h : m.Matches m') : m'.Matches m := ⟨h.1.symm, h.2.symm⟩

theorem Matches.trans {m m' m'' : Method K} (h : m.Matches m') (h' : m'.Matches m'') :
    m.Matches m'' := ⟨h.1.trans h'.1, h.2.trans h'.2⟩

/-- `vmSymbols::object_initializer_name`: `<init>` -/
def objectInitializerName : Bytes := [0x3C, 0x69, 0x6E, 0x69, 0x74, 0x3E]

/-- Static and `<init>` methods are never in a vtable. -/
def IsVirtual (m : Method K) : Prop := m.isStatic = false ∧ m.name ≠ objectInitializerName

instance (m : Method K) : Decidable m.IsVirtual := inferInstanceAs (Decidable (_ ∧ _))

/-- The method `m()V` of a class, for examples. -/
def exampleMethod (holder : K) (access : Access) : Method K where
  holder := holder
  name := [0x6D]
  signature := [0x28, 0x29, 0x56]
  access := access
  isStatic := false
  isFinal := false

end Method

/-- The loaded classes and interfaces. -/
structure LoadedClasses (K : Type) where
  /-- `java.lang.Object` -/
  object : K
  super : K → Option K
  super_eq_none : ∀ {k}, super k = none ↔ k = object
  /-- The number of superclasses. -/
  depth : K → Nat
  depth_super : ∀ {k s}, super k = some s → depth k = depth s + 1
  loader : K → Nat
  name : K → Bytes
  isFinal : K → Bool
  majorVersion : K → Nat
  methods : K → List (Method K)
  localInterfaces : K → List K
  transitiveInterfaces : K → List K
  holder_eq : ∀ {k m}, m ∈ methods k → m.holder = k
  /-- The parser rejects a duplicate name and signature. -/
  methods_distinct : ∀ k, (methods k).Pairwise fun m m' => ¬ m.Matches m'
  /-- The parser rejects a subclass of a final class. -/
  super_not_final : ∀ {k s}, super k = some s → isFinal s = false
  /-- The instance methods of `java.lang.Object` are public or protected. -/
  object_access : ∀ {m}, m ∈ methods object → m.isStatic = false →
    m.access = .protected_ ∨ m.access = .public_
  object_interfaces : localInterfaces object = []
  /-- The superclass of an interface. -/
  interface_super : ∀ {k i}, i ∈ transitiveInterfaces k → super i = some object
  /-- `compute_transitive_interfaces` -/
  mem_transitiveInterfaces : ∀ {k i}, i ∈ transitiveInterfaces k ↔
    (∃ s, super k = some s ∧ i ∈ transitiveInterfaces s) ∨
      ∃ l ∈ localInterfaces k, i = l ∨ i ∈ transitiveInterfaces l

namespace LoadedClasses

variable {K : Type} (h : LoadedClasses K)

def ancestorsLoop : Nat → K → List K
  | 0, _ => []
  | fuel + 1, k => k :: match h.super k with
      | none => []
      | some s => ancestorsLoop fuel s

/-- A class and its superclasses, from the class up. -/
def ancestors (k : K) : List K := h.ancestorsLoop (h.depth k + 1) k

/-- The superclasses of a class. -/
def supers (k : K) : List K :=
  match h.super k with
  | none => []
  | some s => h.ancestors s

theorem ancestors_eq (k : K) : h.ancestors k = k :: h.supers k := by
  unfold ancestors supers
  rw [ancestorsLoop]
  cases hs : h.super k with
  | none => rfl
  | some s =>
    rw [h.depth_super hs]
    rfl

theorem supers_of_super {k s : K} (hs : h.super k = some s) : h.supers k = h.ancestors s := by
  rw [supers, hs]

theorem mem_ancestors_self (k : K) : k ∈ h.ancestors k := by
  rw [ancestors_eq]
  exact List.mem_cons_self

theorem mem_ancestors {k a : K} : a ∈ h.ancestors k ↔ a = k ∨ a ∈ h.supers k := by
  rw [ancestors_eq, List.mem_cons]

/-- Induction from the root down. -/
theorem super_induction {P : K → Prop}
    (hstep : ∀ k, (∀ s, h.super k = some s → P s) → P k) (k : K) : P k := by
  induction hn : h.depth k using Nat.strongRecOn generalizing k with
  | ind n ih =>
    refine hstep k fun s hs => ih (h.depth s) ?_ s rfl
    rw [← hn, h.depth_super hs]
    exact Nat.lt_succ_self _

theorem depth_lt_of_mem_supers {k a : K} (ha : a ∈ h.supers k) : h.depth a < h.depth k := by
  induction k using h.super_induction with
  | hstep k ih =>
    unfold supers at ha
    split at ha
    · cases ha
    · next s hs =>
        rw [h.depth_super hs]
        rcases h.mem_ancestors.1 ha with rfl | ha
        · omega
        · have hlt := ih s hs ha
          omega

theorem supers_object : h.supers h.object = [] := by
  rw [supers, h.super_eq_none.2 rfl]

theorem object_mem_ancestors (k : K) : h.object ∈ h.ancestors k := by
  induction k using h.super_induction with
  | hstep k ih =>
    rw [h.mem_ancestors]
    cases hs : h.super k with
    | none => exact .inl (h.super_eq_none.1 hs).symm
    | some s =>
      rw [h.supers_of_super hs]
      exact .inr (ih s hs)

theorem mem_supers_trans {k a b : K} (hb : b ∈ h.supers a) (ha : a ∈ h.ancestors k) :
    b ∈ h.supers k := by
  induction k using h.super_induction with
  | hstep k ih =>
    rcases h.mem_ancestors.1 ha with rfl | ha
    · exact hb
    · unfold supers at ha ⊢
      split at ha
      · cases ha
      · next s hs => exact h.mem_ancestors.2 (.inr (ih s hs ha))

theorem mem_ancestors_trans {k a b : K} (hb : b ∈ h.ancestors a) (ha : a ∈ h.ancestors k) :
    b ∈ h.ancestors k := by
  rcases h.mem_ancestors.1 hb with rfl | hb
  · exact ha
  · exact h.mem_ancestors.2 (.inr (h.mem_supers_trans hb ha))

theorem mem_ancestors_total {k a b : K} (ha : a ∈ h.ancestors k) (hb : b ∈ h.ancestors k) :
    a ∈ h.ancestors b ∨ b ∈ h.ancestors a := by
  induction k using h.super_induction with
  | hstep k ih =>
    rcases h.mem_ancestors.1 ha with rfl | ha'
    · exact .inr hb
    rcases h.mem_ancestors.1 hb with rfl | hb'
    · exact .inl ha
    cases hs : h.super k with
    | none =>
      rw [supers, hs] at ha'
      cases ha'
    | some s =>
      rw [h.supers_of_super hs] at ha' hb'
      exact ih s hs ha' hb'

/-- `find_method` -/
def findMethod (methods : List (Method K)) (name signature : Bytes) : Option (Method K) :=
  methods.find? fun m => m.name = name ∧ m.signature = signature

/-- `lookup_method` -/
def lookupMethod (k : K) (name signature : Bytes) : Option (Method K) :=
  (h.ancestors k).findSome? fun a => findMethod (h.methods a) name signature

/-- `lookup_method_in_all_interfaces` -/
def lookupMethodInAllInterfaces (k : K) (name signature : Bytes) : Option (Method K) :=
  (h.transitiveInterfaces k).findSome? fun i => h.lookupMethod i name signature

/-- What `UTF8::strrchr` leaves in front of the last slash, and the slash. -/
def packageName (name : Bytes) : Bytes := (name.reverse.dropWhile (· ≠ Letter.slash)).reverse

/-- `is_same_class_package` -/
def isSameClassPackage (k k' : K) : Bool :=
  h.loader k = h.loader k' ∧
    (h.name k = h.name k' ∨ packageName (h.name k) = packageName (h.name k'))

/-- Whether the method of `k` can be overridden by a method in the class `target`. -/
def isOverride (k : K) (m : Method K) (target : K) : Bool :=
  match m.access with
  | .private_ => false
  | .protected_ | .public_ => true
  | .packagePrivate => h.isSameClassPackage k target

/-! ## Facts about the searches -/

theorem findMethod_eq_some {methods : List (Method K)} {name signature : Bytes} {m : Method K}
    (hm : findMethod methods name signature = some m) :
    m ∈ methods ∧ m.name = name ∧ m.signature = signature := by
  have hname := List.find?_some hm
  exact ⟨List.mem_of_find?_eq_some hm, by simpa using hname⟩

theorem methods_unique {k : K} {m m' : Method K} (hm : m ∈ h.methods k) (hm' : m' ∈ h.methods k)
    (hmatch : m.Matches m') : m = m' := by
  by_contra hne
  have hsymm : Std.Symm fun m m' : Method K => ¬ m.Matches m' :=
    ⟨fun _ _ hnot hmatch => hnot hmatch.symm⟩
  exact (h.methods_distinct k).forall hm hm' hne hmatch

theorem findMethod_eq_of_mem {k : K} {m : Method K} (hm : m ∈ h.methods k) :
    findMethod (h.methods k) m.name m.signature = some m := by
  cases hfind : findMethod (h.methods k) m.name m.signature with
  | none =>
    have hnone := List.find?_eq_none.1 hfind m hm
    simp at hnone
  | some m' =>
    obtain ⟨hm', hname, hsignature⟩ := findMethod_eq_some hfind
    rw [h.methods_unique hm' hm ⟨hname, hsignature⟩]

theorem isSameClassPackage_iff {k k' : K} : h.isSameClassPackage k k' = true ↔
    h.loader k = h.loader k' ∧ packageName (h.name k) = packageName (h.name k') := by
  simp only [isSameClassPackage, decide_eq_true_eq]
  constructor
  · rintro ⟨hloader, hname | hname⟩
    · exact ⟨hloader, congrArg packageName hname⟩
    · exact ⟨hloader, hname⟩
  · rintro ⟨hloader, hname⟩
    exact ⟨hloader, .inr hname⟩

theorem isSameClassPackage_symm {k k' : K} (hk : h.isSameClassPackage k k' = true) :
    h.isSameClassPackage k' k = true := by
  rw [isSameClassPackage_iff] at hk ⊢
  exact ⟨hk.1.symm, hk.2.symm⟩

theorem isSameClassPackage_trans {k k' k'' : K} (hk : h.isSameClassPackage k k' = true)
    (hk' : h.isSameClassPackage k' k'' = true) : h.isSameClassPackage k k'' = true := by
  rw [isSameClassPackage_iff] at hk hk' ⊢
  exact ⟨hk.1.trans hk'.1, hk.2.trans hk'.2⟩

end LoadedClasses

open Method

namespace LoadedClasses

variable {K : Type} (h : LoadedClasses K)

/-! ## Miranda methods -/

def isMiranda (m : Method K) (classMethods : List (Method K)) (super : Option K) : Bool :=
  (findMethod classMethods m.name m.signature).isNone && match super with
    | none => true
    | some s => (h.lookupMethod s m.name m.signature).isNone

/-- The loop of `add_new_mirandas_to_list` for one method of an interface. -/
def addNewMiranda (classMethods : List (Method K)) (super : Option K) (list : List (Method K))
    (im : Method K) : List (Method K) :=
  if list.any fun miranda => im.name = miranda.name ∧ im.signature = miranda.signature then list
  else if h.isMiranda im classMethods super then
    match super with
    | none => list -- only the root has no superclass, and it has no interfaces
    | some s =>
      -- check if it is a duplicate of a super's miranda
      if (h.lookupMethodInAllInterfaces s im.name im.signature).isNone then list ++ [im] else list
  else list

def addNewMirandasToList (classMethods : List (Method K)) (super : Option K)
    (list interfaceMethods : List (Method K)) : List (Method K) :=
  interfaceMethods.foldl (h.addNewMiranda classMethods super) list

def getMirandas (k : K) : List (Method K) :=
  (h.localInterfaces k).foldl
    (fun list i => (h.transitiveInterfaces i).foldl
      (fun list j => h.addNewMirandasToList (h.methods k) (h.super k) list (h.methods j))
      (h.addNewMirandasToList (h.methods k) (h.super k) list (h.methods i)))
    []

/-- The flag that is set for a class that introduces or inherits miranda methods. -/
def hasMirandaMethods (k : K) : Bool := (h.ancestors k).any fun a => !(h.getMirandas a).isEmpty

/-! ## The length at load time -/

/-- The loop of `needs_new_vtable_entry` up the superclasses. -/
def declaresOverridden (k : K) (target : Method K) (superclasses : List K) : Bool :=
  superclasses.any fun superk =>
    match findMethod (h.methods superk) target.name target.signature with
    | none => false
    | some superMethod =>
      !superMethod.isStatic && superMethod.access ≠ .private_ && h.isOverride superk superMethod k

def needsNewVtableEntry (k : K) (target : Method K) : Bool :=
  if h.isFinal k ∨ target.isFinal ∨ target.isStatic ∨ target.name = objectInitializerName then false
  else
    match h.super k with
    | none => true
    | some super =>
      if target.access = .private_ then true
      else if h.declaresOverridden k target (h.ancestors super) then false
      else if h.hasMirandaMethods super ∧
          (h.lookupMethodInAllInterfaces super target.name target.signature).isSome then false
      else true

/-- What a class adds to the length of its superclass's vtable. -/
def numNewEntries (k : K) : Nat :=
  (h.methods k).countP (h.needsNewVtableEntry k) + (h.getMirandas k).length

/-- `compute_vtable_size_and_num_mirandas` -/
def vtableLength (k : K) : Nat := ((h.ancestors k).map h.numNewEntries).sum

end LoadedClasses

/-! ## Linking -/

/-- A vtable that has been filled in, and the indices of the methods that the class declares. -/
structure KlassVtable (K : Type) where
  /-- An entry is `NULL` if fewer entries were needed than reserved. -/
  table : List (Option (Method K))
  vtableIndex : Method K → Option Nat

/-- The vtables of the classes that have been linked. -/
abbrev LinkState (K : Type) := K → Option (KlassVtable K)

def LinkState.table {K : Type} (st : LinkState K) (k : K) : List (Option (Method K)) :=
  (st k).elim [] (·.table)

namespace LoadedClasses

variable {K : Type} (h : LoadedClasses K)

/-- `SystemDictionary::check_signature_loaders` finds no violation for a signature and two
loaders; always so if no constraints are checked. -/
abbrev LoaderCheck := Bytes → Nat → Nat → Bool

/-- `VTABLE_TRANSITIVE_OVERRIDE_VERSION` -/
def vtableTransitiveOverrideVersion : Nat := 51

/-- `find_transitive_override` from `superk`, whose superclasses are given. Without a result a
`NULL` entry has been read. -/
def findTransitiveOverride (st : LinkState K) (k : K) (index : Nat) : K → List K → Option (Option K)
  | superk, [] => some (some superk)
  | superk, supersuperklass :: rest =>
    match (st.table supersuperklass)[index]? with
    | none => some none -- no vtable entry here, stop transitive search
    | some none => none
    | some (some superMethod) =>
      if h.isOverride supersuperklass superMethod k then some (some superk)
      else findTransitiveOverride st k index supersuperklass rest

/-- The class whose method the entry is overridden through, if any. -/
def overriddenThrough (st : LinkState K) (k : K) (index : Nat) (superMethod : Method K) :
    Option (Option K) :=
  if h.isOverride superMethod.holder superMethod k then some (some superMethod.holder)
  else if vtableTransitiveOverrideVersion ≤ h.majorVersion k then
    h.findTransitiveOverride st k index superMethod.holder (h.supers superMethod.holder)
  else some none

/-- What the loop of `update_inherited_vtable` changes. -/
structure UpdateState (K : Type) where
  table : List (Option (Method K))
  allocateNew : Bool
  vtableIndex : Option Nat

/-- One round of the loop of `update_inherited_vtable`. Without a result a `NULL` entry has been
read or a `LinkageError` is thrown. -/
def updateEntry (check : LoaderCheck) (st : LinkState K) (k : K) (target : Method K)
    (u : UpdateState K) (i : Nat) : Option (UpdateState K) :=
  match u.table.getD i none with
  | none => none
  | some superMethod =>
    if superMethod.Matches target then
      match h.overriddenThrough st k i superMethod with
      | none => none
      | some none => some u
      | some (some superKlass) =>
        if h.loader k ≠ h.loader superKlass ∧
            check target.signature (h.loader k) (h.loader superKlass) = false then none
        else some ⟨u.table.set i (some target), false, some i⟩
    else some u

/-- `update_inherited_vtable` on the vtable so far. -/
def updateInheritedVtable (check : LoaderCheck) (st : LinkState K) (k : K) (superVtableLen : Nat)
    (table : List (Option (Method K))) (target : Method K) : Option (UpdateState K) :=
  if target.isStatic ∨ target.name = objectInitializerName then some ⟨table, false, none⟩
  else
    let allocateNew := !(h.isFinal k || target.isFinal)
    match h.super k with
    | none => some ⟨table, allocateNew, none⟩
    | some _ =>
      if target.access = .private_ then some ⟨table, allocateNew, none⟩
      else (List.range superVtableLen).foldlM (h.updateEntry check st k target)
        ⟨table, allocateNew, none⟩

/-- The vtable of the superclass. -/
def superTable (st : LinkState K) (k : K) : List (Option (Method K)) :=
  match h.super k with
  | none => []
  | some s => st.table s

variable [DecidableEq K]

/-- One round of the loop of `initialize_vtable`. The length of the table is `initialized`. -/
def initializeMethod (check : LoaderCheck) (st : LinkState K) (k : K) (superVtableLen : Nat)
    (v : KlassVtable K) (target : Method K) : Option (KlassVtable K) := do
  let u ← h.updateInheritedVtable check st k superVtableLen v.table target
  if u.allocateNew then
    return ⟨u.table ++ [some target], Function.update v.vtableIndex target (some u.table.length)⟩
  else
    return ⟨u.table, Function.update v.vtableIndex target u.vtableIndex⟩

/-- `initialize_vtable` up to the check that the entries fit. -/
def initializeVtable (check : LoaderCheck) (st : LinkState K) (k : K) : Option (KlassVtable K) := do
  let superTable := h.superTable st k
  let v ← (h.methods k).foldlM (h.initializeMethod check st k superTable.length)
    ⟨superTable, fun _ => none⟩
  return ⟨v.table ++ (h.getMirandas k).map some, v.vtableIndex⟩

/-- The entries that are left over are cleared. -/
def fillUp (k : K) (v : KlassVtable K) : KlassVtable K :=
  ⟨v.table ++ List.replicate (h.vtableLength k - v.table.length) none, v.vtableIndex⟩

/-- A class is linked after its superclass. It must fit into the space that has been reserved. -/
inductive Link (check : LoaderCheck) : LinkState K → LinkState K → Prop
  | mk {st : LinkState K} {k : K} {v : KlassVtable K} (hnew : st k = none)
      (hsuper : ∀ s, h.super k = some s → st s ≠ none)
      (hv : h.initializeVtable check st k = some v) (hfits : v.table.length ≤ h.vtableLength k) :
      Link check st (Function.update st k (some (h.fillUp k v)))

/-- The superclass, if any, has been linked. -/
def superLinked (st : LinkState K) (k : K) : Bool := (h.super k).all fun s => (st s).isSome

/-- The step, to run it. -/
def link (check : LoaderCheck) (st : LinkState K) (k : K) : Option (LinkState K) :=
  if (st k).isNone ∧ h.superLinked st k then
    match h.initializeVtable check st k with
    | none => none
    | some v =>
      if v.table.length ≤ h.vtableLength k then
        some (Function.update st k (some (h.fillUp k v)))
      else none
  else none

end LoadedClasses

end HotSpot
