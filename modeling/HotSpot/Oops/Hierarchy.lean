import HotSpot.Classfile.Signature
import HotSpot.Lib.LinkedSegment
import Mathlib

/-! # The class hierarchy

Classes and interfaces as they are linked into the hierarchy when they are loaded:
each is put in front of the subclasses of its superclass, and a class is registered
with the interfaces it implements, of which only the first few are remembered.
-/

namespace HotSpot

open ClassFileParser

/-- A method that a class declares. -/
structure MethodDecl where
  name : Bytes
  signature : Bytes
  isAbstract : Bool
  deriving DecidableEq, Repr

/-- What the parser hands over; the methods are those other than `<clinit>`. -/
structure KlassDecl where
  super : Option Nat
  isInterface : Bool
  isAbstract : Bool
  hasFinalizer : Bool
  methods : List MethodDecl
  localInterfaces : List Nat
  deriving DecidableEq, Repr

structure LinkedKlass extends KlassDecl where
  transitiveInterfaces : List Nat
  subklass : Option Nat
  nextSibling : Option Nat
  nofImplementors : Nat
  /-- The implementors that are remembered: none when there are too many. -/
  implementors : List Nat
  deriving DecidableEq, Repr

/-- The loaded classes, in the order they were loaded. The first one is `Object`. -/
structure Hierarchy where
  klass : Nat → LinkedKlass
  count : Nat

namespace Hierarchy

variable (H : Hierarchy)

def update (k : Nat) (f : LinkedKlass → LinkedKlass) : Hierarchy :=
  { H with klass := Function.update H.klass k (f (H.klass k)) }

/-! ## Interfaces -/

/-- `append_interfaces` -/
def appendInterfaces (result ifs : List Nat) : List Nat :=
  ifs.foldl (fun result e => if e ∈ result then result else result ++ [e]) result

/-- `ClassFileParser::compute_transitive_interfaces` -/
def computeTransitiveInterfaces (super : Option Nat) (localIfs : List Nat) : List Nat :=
  let superIfs := (super.map fun s => (H.klass s).transitiveInterfaces).getD []
  let maxTransitiveSize := superIfs.length +
    (localIfs.map fun l => (H.klass l).transitiveInterfaces.length).sum + localIfs.length
  if maxTransitiveSize = 0 then []
  else if maxTransitiveSize = superIfs.length then superIfs
  else if maxTransitiveSize = localIfs.length then localIfs
  else
    let result := appendInterfaces [] superIfs
    let result := localIfs.foldl
      (fun result l => appendInterfaces result (H.klass l).transitiveInterfaces) result
    appendInterfaces result localIfs

def implementsInterface (k i : Nat) : Bool :=
  k == i || (H.klass k).transitiveInterfaces.contains i

/-! ## Linking -/

/-- A new class, which is not linked yet. -/
def create (d : KlassDecl) : Hierarchy where
  klass := Function.update H.klass H.count
    { d with
      transitiveInterfaces := H.computeTransitiveInterfaces d.super d.localInterfaces
      subklass := none
      nextSibling := none
      nofImplementors := 0
      implementors := [] }
  count := H.count + 1

def appendToSiblingList (k : Nat) : Hierarchy :=
  match (H.klass k).super with
  | none => H
  | some super =>
    let prevFirstSubklass := (H.klass super).subklass
    let H := if prevFirstSubklass ≠ none then
        H.update k fun klass => { klass with nextSibling := prevFirstSubklass }
      else H
    H.update super fun klass => { klass with subklass := some k }

def implementorsLimit : Nat := 2

/-- Count an implementor, and remember it if there are not too many. -/
def registerImplementor (i k : Nat) : Hierarchy :=
  H.update i fun klass => { klass with
    nofImplementors := klass.nofImplementors + 1
    implementors :=
      if klass.nofImplementors < implementorsLimit then klass.implementors ++ [k]
      else if klass.nofImplementors = implementorsLimit then []
      else klass.implementors }

/-- The superclass of `k` implements the interface already. -/
def superImplements (k i : Nat) : Bool :=
  match (H.klass k).super with
  | none => false
  | some super => H.implementsInterface super i

/-- `instanceKlass::add_implementor` of the interface `i`, down to a depth. -/
def addImplementor (k : Nat) : Nat → Hierarchy → Nat → Hierarchy
  | 0, H, _ => H
  | depth + 1, H, i =>
    if (H.klass k).isInterface then H
    else if H.superImplements k i then H
    else
      let H := H.registerImplementor i k
      (H.klass i).localInterfaces.foldl (addImplementor k depth) H

def processInterfaces (k : Nat) : Hierarchy :=
  (H.klass k).localInterfaces.reverse.foldl (addImplementor k H.count) H

/-- `SystemDictionary::add_to_hierarchy` of a class that was parsed. -/
def load (d : KlassDecl) : Hierarchy :=
  ((H.create d).appendToSiblingList H.count).processInterfaces H.count

/-! ## Loading -/

/-- What the parser checks of a class, with its supertypes loaded. -/
structure Loadable (d : KlassDecl) : Prop where
  super : ∃ s < H.count, d.super = some s ∧ (H.klass s).isInterface = false
  localInterfaces : ∀ i ∈ d.localInterfaces, i < H.count ∧ (H.klass i).isInterface = true
  nodup : d.localInterfaces.Nodup
  interface : d.isInterface = true →
    d.super = some 0 ∧ d.isAbstract = true ∧ ∀ m ∈ d.methods, m.isAbstract = true

/-- `Object` alone. -/
def object (methods : List MethodDecl) (hasFinalizer : Bool) : Hierarchy :=
  load ⟨fun _ => ⟨⟨none, false, false, false, [], []⟩, [], none, none, 0, []⟩, 0⟩
    ⟨none, false, false, hasFinalizer, methods, []⟩

/-- The hierarchies that loading classes one by one can lead to. -/
inductive Loaded : Hierarchy → Prop where
  | object (methods : List MethodDecl) (hasFinalizer : Bool) : Loaded (object methods hasFinalizer)
  | load {H : Hierarchy} {d : KlassDecl} (hloaded : Loaded H) (hd : H.Loadable d) :
      Loaded (H.load d)

/-! ## Subtypes -/

def DirectSuper (c t : Nat) : Prop :=
  (H.klass c).super = some t ∨ t ∈ (H.klass c).localInterfaces

/-- The supertypes that a class declares, and theirs. -/
def IsSubtype (c t : Nat) : Prop := Relation.ReflTransGen H.DirectSuper c t

def IsSubclass (c t : Nat) : Prop :=
  Relation.ReflTransGen (fun c t => (H.klass c).super = some t) c t

end Hierarchy

end HotSpot

/-! ## The shape of a hierarchy

What holds of every hierarchy that was built by loading classes: the declarations are
well founded, the sibling list of a class has its subclasses, and the classes that
implement an interface are below the ones that were registered with it.
-/

namespace HotSpot.Hierarchy

variable {H H' : Hierarchy}

/-! ## Transitive interfaces -/

theorem mem_appendInterfaces {ifs : List Nat} {result : List Nat} {i : Nat} :
    i ∈ appendInterfaces result ifs ↔ i ∈ result ∨ i ∈ ifs := by
  induction ifs generalizing result with
  | nil => simp [appendInterfaces]
  | cons e ifs ih =>
    rw [appendInterfaces, List.foldl_cons]
    change i ∈ appendInterfaces _ ifs ↔ _
    rw [ih]
    split
    next he =>
      rw [List.mem_cons]
      constructor
      · rintro (hi | hi)
        · exact Or.inl hi
        · exact Or.inr (Or.inr hi)
      · rintro (hi | rfl | hi)
        · exact Or.inl hi
        · exact Or.inl he
        · exact Or.inr hi
    next => simp [or_assoc]

theorem nodup_appendInterfaces {ifs : List Nat} {result : List Nat} (h : result.Nodup) :
    (appendInterfaces result ifs).Nodup := by
  induction ifs generalizing result with
  | nil => exact h
  | cons e ifs ih =>
    rw [appendInterfaces, List.foldl_cons]
    refine ih ?_
    split
    next => exact h
    next he => exact List.nodup_append.mpr ⟨h, List.nodup_singleton e, by
      intro a ha b hb
      rw [List.mem_singleton.mp hb]
      rintro rfl
      exact he ha⟩

theorem mem_foldl_appendInterfaces {ls : List Nat} {result : List Nat} {i : Nat} :
    i ∈ ls.foldl (fun result l => appendInterfaces result (H.klass l).transitiveInterfaces) result ↔
      i ∈ result ∨ ∃ l ∈ ls, i ∈ (H.klass l).transitiveInterfaces := by
  induction ls generalizing result with
  | nil => simp
  | cons l ls ih =>
    rw [List.foldl_cons, ih, mem_appendInterfaces]
    simp [or_assoc]

theorem nodup_foldl_appendInterfaces {ls : List Nat} {result : List Nat} (h : result.Nodup) :
    (ls.foldl (fun result l => appendInterfaces result (H.klass l).transitiveInterfaces)
      result).Nodup := by
  induction ls generalizing result with
  | nil => exact h
  | cons l ls ih => exact ih (nodup_appendInterfaces h)

/-- The transitive interfaces of the superclass, if there is one. -/
def superIfs (H : Hierarchy) (super : Option Nat) : List Nat :=
  (super.map fun s => (H.klass s).transitiveInterfaces).getD []

theorem mem_superIfs {super : Option Nat} {i : Nat} : i ∈ H.superIfs super ↔
    ∃ s, super = some s ∧ i ∈ (H.klass s).transitiveInterfaces := by
  cases super <;> simp [superIfs]

/-- The short cuts have nothing else to add. -/
theorem mem_computeTransitiveInterfaces {super : Option Nat} {localIfs : List Nat} {i : Nat} :
    i ∈ H.computeTransitiveInterfaces super localIfs ↔
      (∃ s, super = some s ∧ i ∈ (H.klass s).transitiveInterfaces) ∨
        ∃ l ∈ localIfs, i = l ∨ i ∈ (H.klass l).transitiveInterfaces := by
  rw [← mem_superIfs, computeTransitiveInterfaces]
  change i ∈ (if _ then [] else if _ then H.superIfs super else _) ↔ _
  have hsum : ∀ l ∈ localIfs, (H.klass l).transitiveInterfaces.length ≤
      (localIfs.map fun l => (H.klass l).transitiveInterfaces.length).sum := fun l hl =>
    List.single_le_sum (by simp) _ (List.mem_map_of_mem hl)
  -- No local interface has interfaces of its own when the sizes say so.
  have hnone : (localIfs.map fun l => (H.klass l).transitiveInterfaces.length).sum = 0 →
      ∀ l ∈ localIfs, (H.klass l).transitiveInterfaces = [] := fun hzero l hl =>
    List.length_eq_zero_iff.mp (by have := hsum l hl; omega)
  split
  next hzero =>
    have hlocal : localIfs = [] := List.length_eq_zero_iff.mp (by omega)
    have hsuper : H.superIfs super = [] := List.length_eq_zero_iff.mp (by
      change (H.superIfs super).length + _ + _ = 0 at hzero
      omega)
    simp [hlocal, hsuper]
  next =>
    split
    next hsize =>
      change (H.superIfs super).length + _ + _ = (H.superIfs super).length at hsize
      have hlocal : localIfs = [] := List.length_eq_zero_iff.mp (by omega)
      simp [hlocal]
    next =>
      split
      next hsize =>
        change (H.superIfs super).length + _ + _ = _ at hsize
        have hsuper : H.superIfs super = [] := List.length_eq_zero_iff.mp (by omega)
        have hown := hnone (by omega)
        rw [hsuper]
        constructor
        · intro hi
          exact Or.inr ⟨i, hi, Or.inl rfl⟩
        · rintro (hi | ⟨l, hl, rfl | hi⟩)
          · exact absurd hi List.not_mem_nil
          · exact hl
          · rw [hown l hl] at hi
            exact absurd hi List.not_mem_nil
      next =>
        rw [mem_appendInterfaces, mem_foldl_appendInterfaces, mem_appendInterfaces]
        constructor
        · rintro (((hi | hi) | ⟨l, hl, hi⟩) | hi)
          · exact absurd hi List.not_mem_nil
          · exact Or.inl hi
          · exact Or.inr ⟨l, hl, Or.inr hi⟩
          · exact Or.inr ⟨i, hi, Or.inl rfl⟩
        · rintro (hi | ⟨l, hl, rfl | hi⟩)
          · exact Or.inl (Or.inl (Or.inr hi))
          · exact Or.inr hl
          · exact Or.inl (Or.inr ⟨l, hl, hi⟩)

theorem nodup_computeTransitiveInterfaces {super : Option Nat} {localIfs : List Nat}
    (hsuper : (H.superIfs super).Nodup) (hlocal : localIfs.Nodup) :
    (H.computeTransitiveInterfaces super localIfs).Nodup := by
  rw [computeTransitiveInterfaces]
  change List.Nodup (if _ then [] else if _ then H.superIfs super else _)
  split
  next => exact List.nodup_nil
  next =>
    split
    next => exact hsuper
    next =>
      split
      next => exact hlocal
      next =>
        exact nodup_appendInterfaces (nodup_foldl_appendInterfaces
          (nodup_appendInterfaces List.nodup_nil))

/-! ## Declarations -/

/-- The declarations of a hierarchy. -/
structure Declared (H : Hierarchy) : Prop where
  pos : 0 < H.count
  root : (H.klass 0).super = none ∧ (H.klass 0).isInterface = false ∧
    (H.klass 0).isAbstract = false ∧ (H.klass 0).localInterfaces = []
  super : ∀ k, 0 < k → k < H.count → ∃ s < k, (H.klass k).super = some s ∧
    (H.klass s).isInterface = false
  interface : ∀ k < H.count, (H.klass k).isInterface = true → (H.klass k).super = some 0 ∧
    (H.klass k).isAbstract = true ∧ ∀ m ∈ (H.klass k).methods, m.isAbstract = true
  locals : ∀ k < H.count, ∀ i ∈ (H.klass k).localInterfaces, i < k ∧
    (H.klass i).isInterface = true
  transitive : ∀ k < H.count, ∀ i, i ∈ (H.klass k).transitiveInterfaces ↔
    (∃ s, (H.klass k).super = some s ∧ i ∈ (H.klass s).transitiveInterfaces) ∨
      ∃ l ∈ (H.klass k).localInterfaces, i = l ∨ i ∈ (H.klass l).transitiveInterfaces
  nodup : ∀ k < H.count, (H.klass k).transitiveInterfaces.Nodup

/-- Two hierarchies that differ only in how the classes are linked. -/
structure SameDecls (H H' : Hierarchy) : Prop where
  count : H'.count = H.count
  decl : ∀ k, (H'.klass k).toKlassDecl = (H.klass k).toKlassDecl
  transitive : ∀ k, (H'.klass k).transitiveInterfaces = (H.klass k).transitiveInterfaces

theorem SameDecls.refl (H : Hierarchy) : SameDecls H H := ⟨rfl, fun _ => rfl, fun _ => rfl⟩

theorem SameDecls.trans {H'' : Hierarchy} (h : SameDecls H H') (h' : SameDecls H' H'') :
    SameDecls H H'' :=
  ⟨h'.count.trans h.count, fun k => (h'.decl k).trans (h.decl k),
    fun k => (h'.transitive k).trans (h.transitive k)⟩

theorem sameDecls_update {k : Nat} {f : LinkedKlass → LinkedKlass}
    (hdecl : (f (H.klass k)).toKlassDecl = (H.klass k).toKlassDecl)
    (htransitive : (f (H.klass k)).transitiveInterfaces = (H.klass k).transitiveInterfaces) :
    SameDecls H (H.update k f) := by
  refine ⟨rfl, fun j => ?_, fun j => ?_⟩ <;> by_cases hj : j = k
  · subst hj
    simpa [update] using hdecl
  · simp [update, hj]
  · subst hj
    simpa [update] using htransitive
  · simp [update, hj]

section SameDecls

variable (h : SameDecls H H') (k : Nat)

include h

theorem SameDecls.super : (H'.klass k).super = (H.klass k).super :=
  congrArg KlassDecl.super (h.decl k)

theorem SameDecls.isInterface : (H'.klass k).isInterface = (H.klass k).isInterface :=
  congrArg KlassDecl.isInterface (h.decl k)

theorem SameDecls.isAbstract : (H'.klass k).isAbstract = (H.klass k).isAbstract :=
  congrArg KlassDecl.isAbstract (h.decl k)

theorem SameDecls.methods : (H'.klass k).methods = (H.klass k).methods :=
  congrArg KlassDecl.methods (h.decl k)

theorem SameDecls.localInterfaces : (H'.klass k).localInterfaces = (H.klass k).localInterfaces :=
  congrArg KlassDecl.localInterfaces (h.decl k)

theorem SameDecls.superImplements (i : Nat) : H'.superImplements k i = H.superImplements k i := by
  simp only [Hierarchy.superImplements, implementsInterface, h.super, h.transitive]

theorem SameDecls.isSubclass (t : Nat) : H'.IsSubclass k t ↔ H.IsSubclass k t := by
  simp only [IsSubclass, h.super]

omit k in
theorem SameDecls.declared (hd : Declared H) : Declared H' := by
  constructor
  case pos => rw [h.count]; exact hd.pos
  case root =>
    rw [h.super, h.isInterface, h.isAbstract, h.localInterfaces]
    exact hd.root
  case super =>
    simp only [h.count, h.super, h.isInterface]
    exact hd.super
  case interface =>
    simp only [h.count, h.super, h.isInterface, h.isAbstract, h.methods]
    exact hd.interface
  case locals =>
    simp only [h.count, h.localInterfaces, h.isInterface]
    exact hd.locals
  case transitive =>
    simp only [h.count, h.super, h.localInterfaces, h.transitive]
    exact hd.transitive
  case nodup =>
    simp only [h.count, h.transitive]
    exact hd.nodup

end SameDecls

theorem klass_create_of_lt {d : KlassDecl} {k : Nat} (hk : k < H.count) :
    (H.create d).klass k = H.klass k := Function.update_of_ne (by omega) _ _

theorem klass_create_self (d : KlassDecl) : (H.create d).klass H.count =
    { d with
      transitiveInterfaces := H.computeTransitiveInterfaces d.super d.localInterfaces
      subklass := none
      nextSibling := none
      nofImplementors := 0
      implementors := [] } := Function.update_self ..

/-- What a new class declares. -/
theorem Declared.create (h : Declared H) {d : KlassDecl} (hd : H.Loadable d) :
    Declared (H.create d) := by
  obtain ⟨s, hs, hsuper, hsclass⟩ := hd.super
  have hold : ∀ k < H.count, (H.create d).klass k = H.klass k := fun k hk => klass_create_of_lt hk
  have hnew := H.klass_create_self d
  have hcases : ∀ k < (H.create d).count, k < H.count ∨ k = H.count := fun k hk =>
    Nat.lt_succ_iff_lt_or_eq.mp hk
  constructor
  case pos => exact Nat.succ_pos _
  case root =>
    rw [hold 0 h.pos]
    exact h.root
  case super =>
    intro k hpos hk
    rcases hcases k hk with hk | rfl
    · obtain ⟨s, hs, hks, hclass⟩ := h.super k hpos hk
      exact ⟨s, hs, by rw [hold k hk, hks], by rw [hold s (by omega), hclass]⟩
    · exact ⟨s, hs, by rw [hnew, hsuper], by rw [hold s hs, hsclass]⟩
  case interface =>
    intro k hk
    rcases hcases k hk with hk | rfl
    · rw [hold k hk]
      exact h.interface k hk
    · rw [hnew]
      exact hd.interface
  case locals =>
    intro k hk i hi
    rcases hcases k hk with hk | rfl
    · rw [hold k hk] at hi
      obtain ⟨hik, hinterface⟩ := h.locals k hk i hi
      exact ⟨hik, by rw [hold i (by omega), hinterface]⟩
    · rw [hnew] at hi
      obtain ⟨hik, hinterface⟩ := hd.localInterfaces i hi
      exact ⟨hik, by rw [hold i hik, hinterface]⟩
  case transitive =>
    intro k hk i
    rcases hcases k hk with hk | rfl
    · rw [hold k hk, h.transitive k hk i]
      refine or_congr (exists_congr fun s => and_congr_right fun hks => ?_)
        (exists_congr fun l => and_congr_right fun hl => ?_)
      · rw [hold s]
        rcases Nat.eq_zero_or_pos k with rfl | hpos
        · rw [h.root.1] at hks
          cases hks
        · obtain ⟨s', hs', hks', -⟩ := h.super k hpos hk
          obtain rfl := Option.some.inj (hks.symm.trans hks')
          omega
      · rw [hold l (by have := (h.locals k hk l hl).1; omega)]
    · rw [hnew]
      simp only
      rw [mem_computeTransitiveInterfaces]
      refine or_congr (exists_congr fun s' => and_congr_right fun hks => ?_)
        (exists_congr fun l => and_congr_right fun hl => ?_)
      · rw [hold s' (by rw [← Option.some.inj (hsuper.symm.trans hks)]; exact hs)]
      · rw [hold l (hd.localInterfaces l hl).1]
  case nodup =>
    intro k hk
    rcases hcases k hk with hk | rfl
    · rw [hold k hk]
      exact h.nodup k hk
    · rw [hnew]
      refine nodup_computeTransitiveInterfaces ?_ hd.nodup
      rw [hsuper]
      exact h.nodup s hs

/-! ## Siblings -/

/-- The sibling list of each class has its subclasses, the last one in front. -/
def Siblings (H : Hierarchy) : Prop :=
  ∀ k < H.count, ∃ l, LinkedSegment (fun c => (H.klass c).nextSibling) (H.klass k).subklass l none ∧
    l.Pairwise (· > ·) ∧ ∀ c, c ∈ l ↔ c < H.count ∧ (H.klass c).super = some k

theorem sameDecls_appendToSiblingList (H : Hierarchy) (k : Nat) :
    SameDecls H (H.appendToSiblingList k) := by
  rw [appendToSiblingList]
  split
  next => exact SameDecls.refl H
  next =>
    simp only
    split
    next => exact (sameDecls_update rfl rfl).trans (sameDecls_update rfl rfl)
    next => exact sameDecls_update rfl rfl

theorem appendToSiblingList_links (H : Hierarchy) {k s : Nat} (hks : k ≠ s)
    (hsuper : (H.klass k).super = some s) (hnone : (H.klass k).nextSibling = none) (c : Nat) :
    ((H.appendToSiblingList k).klass c).nextSibling =
        (if c = k then (H.klass s).subklass else (H.klass c).nextSibling) ∧
      ((H.appendToSiblingList k).klass c).subklass =
        (if c = s then some k else (H.klass c).subklass) := by
  rw [appendToSiblingList, hsuper]
  simp only
  by_cases hprev : (H.klass s).subklass = none
  · rw [if_neg (not_not.mpr hprev), hprev]
    by_cases hc : c = s
    · subst hc
      simp [update, hks.symm]
    · by_cases hck : c = k
      · subst hck
        simp [update, hc, hnone]
      · simp [update, hc, hck]
  · rw [if_pos hprev]
    by_cases hc : c = s
    · subst hc
      simp [update, hks.symm]
    · by_cases hck : c = k
      · subst hck
        simp [update, hc]
      · simp [update, hc, hck]

/-- A new class is the first one of its siblings. -/
theorem Siblings.load (h : Siblings H) (hdecl : Declared H) {d : KlassDecl} (hd : H.Loadable d) :
    Siblings ((H.create d).appendToSiblingList H.count) := by
  obtain ⟨s, hs, hsuper, -⟩ := hd.super
  have hold : ∀ k < H.count, (H.create d).klass k = H.klass k := fun k hk => klass_create_of_lt hk
  have hnew := H.klass_create_self d
  have hsame := (H.create d).sameDecls_appendToSiblingList H.count
  have hlinks := (H.create d).appendToSiblingList_links (k := H.count) (s := s) (by omega)
    (by rw [hnew, hsuper]) (by rw [hnew])
  have hnext : ∀ c < H.count, (((H.create d).appendToSiblingList H.count).klass c).nextSibling =
      (H.klass c).nextSibling := by
    intro c hc
    rw [(hlinks c).1, if_neg (by omega), hold c hc]
  have hmem : ∀ k < H.count, ∀ c, (c < H.count + 1 ∧
      (((H.create d).appendToSiblingList H.count).klass c).super = some k) ↔
      (c < H.count ∧ (H.klass c).super = some k) ∨ (c = H.count ∧ k = s) := by
    intro k hk c
    rw [hsame.super]
    constructor
    · rintro ⟨hc, hck⟩
      rcases Nat.lt_succ_iff_lt_or_eq.mp hc with hc | rfl
      · rw [hold c hc] at hck
        exact Or.inl ⟨hc, hck⟩
      · rw [hnew, hsuper] at hck
        exact Or.inr ⟨rfl, (Option.some.inj hck).symm⟩
    · rintro (⟨hc, hck⟩ | ⟨rfl, rfl⟩)
      · exact ⟨by omega, by rw [hold c hc, hck]⟩
      · exact ⟨by omega, by rw [hnew, hsuper]⟩
  intro k hk
  rw [hsame.count] at hk
  have hcount : ((H.create d).appendToSiblingList H.count).count = H.count + 1 := hsame.count
  rw [hcount]
  rcases Nat.lt_succ_iff_lt_or_eq.mp hk with hk | rfl
  · obtain ⟨l, hl, hsorted, hchildren⟩ := h k hk
    have hlt : ∀ c ∈ l, c < H.count := fun c hc => ((hchildren c).mp hc).1
    have hsegment : LinkedSegment
        (fun c => (((H.create d).appendToSiblingList H.count).klass c).nextSibling)
        (H.klass k).subklass l none := hl.congr fun c hc => hnext c (hlt c hc)
    by_cases hks : k = s
    · subst hks
      refine ⟨H.count :: l, ⟨by rw [(hlinks k).2, if_pos rfl], ?_⟩,
        List.pairwise_cons.mpr ⟨hlt, hsorted⟩, fun c => ?_⟩
      · change LinkedSegment _ (((H.create d).appendToSiblingList H.count).klass _).nextSibling _ _
        rw [(hlinks _).1, if_pos rfl, hold k hk]
        exact hsegment
      · rw [hmem k hk c, List.mem_cons, hchildren c]
        simp [or_comm]
    · refine ⟨l, ?_, hsorted, fun c => ?_⟩
      · rw [(hlinks k).2, if_neg hks, hold k hk]
        exact hsegment
      · rw [hmem k hk c, hchildren c]
        simp [hks]
  · -- The new class has no subclasses.
    refine ⟨[], ?_, List.Pairwise.nil, fun c => ?_⟩
    · rw [(hlinks _).2, if_neg (by omega), hnew]
      rfl
    · refine iff_of_false List.not_mem_nil ?_
      rintro ⟨hc, hck⟩
      rw [hsame.super] at hck
      rcases Nat.lt_succ_iff_lt_or_eq.mp hc with hc | rfl
      · rw [hold c hc] at hck
        rcases Nat.eq_zero_or_pos c with rfl | hpos
        · rw [hdecl.root.1] at hck
          cases hck
        · obtain ⟨s', hs', hcs, -⟩ := hdecl.super c hpos hc
          have := Option.some.inj (hck.symm.trans hcs)
          omega
      · rw [hnew, hsuper] at hck
        have := Option.some.inj hck
        omega

end HotSpot.Hierarchy
