import HotSpot.Code.HierarchyWalk

/-! # Dependencies on subtypes

What it means for the compiler that a dependency on the subtypes of a context type is
unbroken: the search goes down the subclasses, and leaves out what is below the types
that the dependency names.
-/

namespace HotSpot

open Dependencies

variable {H : Hierarchy}

/-! ## Subclasses and the search -/

namespace ClassHierarchyWalker

variable {hide : Bool} {participants : List Nat} {k j : Nat}

theorem Reaches.isSubclass (h : Reaches H hide participants k j) : H.IsSubclass j k := by
  induction h with
  | refl => exact Relation.ReflTransGen.refl
  | tail _ hstep ih => exact ih.head hstep.2.1

/-- A subclass is reached, unless it is below a participant. -/
theorem reaches_or_below (hide : Bool) (participants : List Nat) (hdecl : H.Declared)
    (hj : j < H.count) (h : H.IsSubclass j k) :
    Reaches H hide participants k j ∨
      hide = true ∧ ∃ p ∈ participants, H.IsSubclass j p := by
  induction h using Relation.ReflTransGen.head_induction_on with
  | refl => exact Or.inl Relation.ReflTransGen.refl
  | @head j s hs _ ih =>
    rcases ih ((hdecl.super_lt hj hs).1.trans hj) with hreaches | ⟨hhide, p, hp, hsub⟩
    · by_cases hopen : hide = true ∧ s ∈ participants
      · exact Or.inr ⟨hopen.1, s, hopen.2, Relation.ReflTransGen.single hs⟩
      · exact Or.inl (hreaches.tail ⟨hj, hs, hopen⟩)
    · exact Or.inr ⟨hhide, p, hp, hsub.head hs⟩

/-- What is reached when participants hide what is below them is not below one of them. -/
theorem Reaches.eq_of_below (hdecl : H.Declared) (hk : k < H.count)
    (h : Reaches H true participants k j) {p : Nat} (hp : p ∈ participants)
    (hpk : H.IsSubclass p k) (hpcount : p < H.count) (hjp : H.IsSubclass j p) : j = p := by
  induction h with
  | refl => exact Nat.le_antisymm (hdecl.isSubclass_le hpcount hpk) (hdecl.isSubclass_le hk hjp)
  | @tail a j _ hstep ih =>
    rcases Relation.ReflTransGen.cases_head hjp with rfl | ⟨s, hs, hsp⟩
    · rfl
    · obtain rfl := Option.some.inj (hstep.2.1.symm.trans hs)
      exact absurd ⟨rfl, ih hsp ▸ hp⟩ hstep.2.2

end ClassHierarchyWalker

namespace Hierarchy

/-- A class or interface that has no more than one implementor below it. -/
def SingleImplementor (H : Hierarchy) (k : Nat) : Prop :=
  (H.klass k).isInterface = false ∨ (H.klass k).nofImplementors ≤ 1

theorem Shaped.nofImplementors_le (h : Shaped H) {k : Nat} (hk : k < H.count)
    (hsingle : H.SingleImplementor k) : (H.klass k).nofImplementors ≤ 1 := by
  rcases hsingle with hclass | hnof
  · rw [h.nofImplementors_class hk hclass]
    exact Nat.zero_le 1
  · exact hnof

/-- The subclasses of its only implementor are the classes that implement an interface. -/
theorem Shaped.isSubtype_implementor (h : Shaped H) {k c : Nat} (hk : k < H.count)
    (hinterface : (H.klass k).isInterface = true) (hnof : (H.klass k).nofImplementors ≤ 1)
    (hc : c < H.count) (hclass : (H.klass c).isInterface = false) (hsub : H.IsSubtype c k) :
    ∃ r, (H.klass k).implementors = [r] ∧ H.IsSubclass c r := by
  have hck := (h.declared.isSubtype_interface hc hclass hinterface).mp hsub
  rcases Nat.lt_or_ge 0 (H.klass k).nofImplementors with hpos | hzero
  · obtain ⟨r, himpls, -, -, -, -, hall⟩ := h.implementors_one hk (by omega)
    exact ⟨r, himpls, hall c hc hclass hck⟩
  · obtain ⟨regs, ⟨hlength, -⟩, -, hall⟩ := h.registered k hk
    obtain ⟨r, hr, -⟩ := hall c hc hclass hck
    have hpos := List.length_pos_of_mem hr
    omega

theorem Shaped.implementor_lt (h : Shaped H) {k r : Nat} (hk : k < H.count)
    (hr : r ∈ (H.klass k).implementors) : r < H.count ∧ (H.klass r).isInterface = false ∧
      k ∈ (H.klass r).transitiveInterfaces := by
  obtain ⟨regs, ⟨-, hlist⟩, habove, -⟩ := h.registered k hk
  rw [hlist] at hr
  split at hr
  next => exact habove r hr
  next => exact absurd hr List.not_mem_nil

end Hierarchy

/-! ## Concrete subtypes -/

namespace Dependencies

/-- A concrete class among the subtypes of a context type. -/
def ConcreteSubtype (H : Hierarchy) (ctxk c : Nat) : Prop :=
  c < H.count ∧ isConcreteKlass H c = true ∧ H.IsSubtype c ctxk

theorem ConcreteSubtype.not_interface (h : H.Declared) {ctxk c : Nat}
    (hc : ConcreteSubtype H ctxk c) :
    (H.klass c).isInterface = false := by
  obtain ⟨hlt, hconcrete, -⟩ := hc
  cases hinterface : (H.klass c).isInterface with
  | false => rfl
  | true => simp [isConcreteKlass, (h.interface c hlt hinterface).2.1] at hconcrete

open ClassHierarchyWalker

variable {verify : Bool} {w : ClassHierarchyWalker} {ctxk : Nat}

/-- A search for subtypes that finds no witness. -/
theorem findWitnessSubtype_sound (h : H.Shaped) (hctxk : ctxk < H.count)
    (hdescriptor : w.descriptor = none) (hrecord : w.recordWitnesses = 0)
    (hnone : w.findWitnessSubtype H verify ctxk none = some none) {c : Nat}
    (hc : ConcreteSubtype H ctxk c) : ∃ p ∈ w.participants, H.IsSubtype c p := by
  have hclass := hc.not_interface h.declared
  obtain ⟨hlt, hconcrete, hsub⟩ := hc
  obtain ⟨⟨witness, w'⟩, hrun, hwitness⟩ := Option.map_eq_some_iff.mp hnone
  obtain rfl : witness = none := hwitness
  obtain ⟨hgrows, hcovered, himpls⟩ := findWitnessAnywhere_none h hctxk hrun
  rw [(hgrows.participants_eq hrecord).1] at himpls
  have hfound : ∀ k, Covered H true w' k → H.IsSubclass c k →
      ∃ p ∈ w.participants, H.IsSubtype c p := by
    intro k hk hck
    rw [← (hgrows.participants_eq hrecord).1]
    rcases reaches_or_below true w'.participants h.declared hlt hck with hreaches | ⟨-, p, hp, hcp⟩
    · have hwitness : w'.isWitness H c = true := by
        rw [isWitness, hgrows.descriptor, hdescriptor]
        exact hconcrete
      exact ⟨c, hk c hreaches hwitness, Relation.ReflTransGen.refl⟩
    · exact ⟨p, hp, hcp.isSubtype⟩
  cases hinterface : (H.klass ctxk).isInterface with
  | false => exact hfound ctxk hcovered ((h.declared.isSubtype_class hlt hinterface).mp hsub)
  | true =>
    rcases himpls with ⟨-, hmem⟩ | ⟨hnof, himpls⟩
    · exact ⟨ctxk, hmem, hsub⟩
    · obtain ⟨r, hr, hcr⟩ := h.isSubtype_implementor hctxk hinterface hnof hlt hclass hsub
      exact hfound r (himpls r (by rw [hr]; exact List.mem_cons_self)) hcr

/-- A search for subtypes finds no witness when each concrete subtype is below a class
that the dependency names. -/
theorem findWitnessSubtype_complete (h : H.Shaped) (hctxk : ctxk < H.count)
    (hsingle : H.SingleImplementor ctxk) (hdescriptor : w.descriptor = none)
    (hrecord : w.recordWitnesses = 0)
    (hparticipants : ∀ p ∈ w.participants, p < H.count ∧ (H.klass p).isInterface = false ∧
      H.IsSubtype p ctxk)
    (hall : ∀ c, ConcreteSubtype H ctxk c → ∃ p ∈ w.participants, H.IsSubtype c p) :
    w.findWitnessSubtype H verify ctxk none = some none := by
  obtain ⟨⟨witness, w'⟩, hrun⟩ :=
    Option.isSome_iff_exists.mp (findWitnessAnywhere_isSome h true verify hctxk w)
  cases witness with
  | none => rw [findWitnessSubtype, hrun]; rfl
  | some witness =>
    exfalso
    have hwitness : ∀ k, w.isWitness H k = isConcreteKlass H k := fun k => by
      rw [isWitness, hdescriptor]
    rcases Nat.eq_zero_or_pos ctxk with rfl | hpos
    · -- `Object` is concrete: it is a witness, or a participant that hides all.
      have hconcrete : isConcreteKlass H 0 = true := by
        rw [isConcreteKlass, h.declared.root.2.2.1]
        rfl
      obtain ⟨p, hp, hzero⟩ := hall 0 ⟨hctxk, hconcrete, Relation.ReflTransGen.refl⟩
      obtain rfl : p = 0 := Nat.le_zero.mp (h.declared.isSubtype_le hctxk hzero)
      rw [findWitnessAnywhere, test, if_pos hp] at hrun
      cases hrun
    · obtain ⟨hopen, k, hk, hreaches, hconcrete, hnot⟩ := findWitnessAnywhere_some h hctxk hpos
        (h.nofImplementors_le hctxk hsingle) hrecord hrun
      rw [hwitness] at hconcrete
      have hkcount : k < H.count := by
        rcases hk with rfl | hk
        · exact hctxk
        · exact (h.implementor_lt hctxk hk).1
      have hkctxk : H.IsSubtype k ctxk := by
        rcases hk with rfl | hk
        · exact Relation.ReflTransGen.refl
        · obtain ⟨-, -, hi⟩ := h.implementor_lt hctxk hk
          exact (h.declared.isSubtype_iff hkcount).mpr (Or.inr hi)
      have hwk := hreaches.isSubclass
      have hwcount : witness < H.count := by
        rcases Relation.ReflTransGen.cases_tail hreaches with rfl | ⟨a, -, hstep⟩
        · exact hkcount
        · exact hstep.1
      have hsubtype : ConcreteSubtype H ctxk witness :=
        ⟨hwcount, hconcrete, hwk.isSubtype.trans hkctxk⟩
      have hclass := hsubtype.not_interface h.declared
      obtain ⟨p, hp, hwp⟩ := hall witness hsubtype
      obtain ⟨hpcount, hpclass, hpctxk⟩ := hparticipants p hp
      rw [h.declared.isSubtype_class hwcount hpclass] at hwp
      -- The participant is between the witness and where the search began.
      have hpk : H.IsSubclass p k := by
        rcases hk with rfl | hk
        · cases hinterface : (H.klass k).isInterface with
          | false => exact (h.declared.isSubtype_class hpcount hinterface).mp hpctxk
          | true =>
            rcases Relation.ReflTransGen.cases_tail hwk with rfl | ⟨b, hb, hs⟩
            · rw [hclass] at hinterface
              cases hinterface
            · have hbcount := (h.declared.isSubclass_le hwcount hb).trans_lt hwcount
              rw [(h.declared.super_lt hbcount hs).2] at hinterface
              cases hinterface
        · obtain ⟨-, -, hi⟩ := h.implementor_lt hctxk hk
          have hinterface := (h.declared.transitive_lt hkcount hi).2
          obtain ⟨r, hr, hpr⟩ := h.isSubtype_implementor hctxk hinterface
            (h.nofImplementors_le hctxk hsingle) hpcount hpclass hpctxk
          rw [hr, List.mem_singleton] at hk
          rw [hk]
          exact hpr
      exact hnot (hreaches.eq_of_below h.declared hkcount hp hpk hpcount hwp ▸ hp)

/-! ## Leaf types -/

theorem checkLeafType_eq_none_iff (h : H.Shaped) (hctxk : ctxk < H.count) :
    checkLeafType H ctxk = none ↔
      if (H.klass ctxk).isInterface then
        ∀ c < H.count, (H.klass c).isInterface = false → ¬ H.IsSubtype c ctxk
      else ∀ c < H.count, H.IsSubtype c ctxk → c = ctxk := by
  obtain ⟨l, hl, hmem, -⟩ := h.subclasses hctxk
  cases hinterface : (H.klass ctxk).isInterface with
  | true =>
    obtain ⟨regs, ⟨hnof, hlist⟩, habove, hall⟩ := h.registered ctxk hctxk
    have hnone : checkLeafType H ctxk = none ↔ regs = [] := by
      rw [checkLeafType, h.subklass_interface hctxk hinterface]
      simp only [hnof, ne_eq, List.length_eq_zero_iff]
      by_cases hregs : regs = []
      · simp [hregs]
      · rw [if_pos hregs]
        refine iff_of_false ?_ hregs
        split <;> simp
    rw [hnone, if_pos rfl]
    constructor
    · rintro rfl c hc hclass hsub
      obtain ⟨r, hr, -⟩ := hall c hc hclass
        ((h.declared.isSubtype_interface hc hclass hinterface).mp hsub)
      exact absurd hr List.not_mem_nil
    · intro hfree
      refine List.eq_nil_iff_forall_not_mem.mpr fun r hr => ?_
      obtain ⟨hrc, hclass, hi⟩ := habove r hr
      exact hfree r hrc hclass ((h.declared.isSubtype_iff hrc).mpr (Or.inr hi))
  | false =>
    rw [if_neg (by simp), checkLeafType, h.nofImplementors_class hctxk hinterface]
    cases hsub : (H.klass ctxk).subklass with
    | none =>
      rw [hsub] at hl
      obtain rfl := hl.none_eq
      refine iff_of_true rfl fun c hc hsubtype => ?_
      rw [h.declared.isSubtype_class hc hinterface] at hsubtype
      rcases Relation.ReflTransGen.cases_tail hsubtype with rfl | ⟨b, hb, hs⟩
      · rfl
      · have hbc := (h.declared.isSubclass_le hc hb).trans_lt hc
        exact absurd ((hmem b).mpr ⟨hbc, hs⟩) List.not_mem_nil
    | some sub =>
      rw [hsub] at hl
      obtain ⟨rest, rfl, -⟩ := hl.some_eq
      obtain ⟨hlt, hsuper⟩ := (hmem sub).mp List.mem_cons_self
      refine iff_of_false (by simp) fun hfree => ?_
      have heq := hfree sub hlt (Relation.ReflTransGen.single (Or.inl hsuper))
      have := (h.declared.super_lt hlt hsuper).1
      omega

/-! ## What the checks say -/

/-- The result of a check that each concrete subtype of the context type is below one of
some types: it is never wrong when it finds nothing, and when the context type has no
more than one implementor it finds only what breaks the dependency. -/
structure ChecksSubtypes (H : Hierarchy) (ctxk : Nat) (named : List Nat)
    (result : Option (Option Nat)) : Prop where
  ends : result.isSome
  sound : result = some none →
    ∀ c, ConcreteSubtype H ctxk c → ∃ k ∈ named, H.IsSubtype c k
  complete : H.SingleImplementor ctxk →
    (∀ k ∈ named, k < H.count ∧ (H.klass k).isInterface = false ∧ H.IsSubtype k ctxk) →
    (∀ c, ConcreteSubtype H ctxk c → ∃ k ∈ named, H.IsSubtype c k) → result = some none

theorem checksSubtypes_findWitnessSubtype (h : H.Shaped) (hctxk : ctxk < H.count)
    (hdescriptor : w.descriptor = none) (hrecord : w.recordWitnesses = 0) :
    ChecksSubtypes H ctxk w.participants (w.findWitnessSubtype H verify ctxk none) where
  ends := by
    rw [findWitnessSubtype, Option.isSome_map]
    exact findWitnessAnywhere_isSome h true verify hctxk w
  sound := fun hnone _ hc => findWitnessSubtype_sound h hctxk hdescriptor hrecord hnone hc
  complete := fun hsingle hnamed hall =>
    findWitnessSubtype_complete h hctxk hsingle hdescriptor hrecord hnamed hall

/-- The checks of dependencies on the subtypes of a context type, over a whole hierarchy. -/
theorem check_subtypes (hloaded : H.Loaded) (hctxk : ctxk < H.count) (verify : Bool) :
    (checkLeafType H ctxk = none ↔
      if (H.klass ctxk).isInterface then
        ∀ c < H.count, (H.klass c).isInterface = false → ¬ H.IsSubtype c ctxk
      else ∀ c < H.count, H.IsSubtype c ctxk → c = ctxk) ∧
    ChecksSubtypes H ctxk [] (checkAbstractWithNoConcreteSubtype H verify ctxk none) ∧
    (∀ conck, ChecksSubtypes H ctxk [conck]
      (checkAbstractWithUniqueConcreteSubtype H verify ctxk conck none)) ∧
    ∀ k1 k2, ChecksSubtypes H ctxk [k1, k2]
      (checkAbstractWithExclusiveConcreteSubtypes H verify ctxk k1 k2 none) := by
  have h := hloaded.shaped
  refine ⟨checkLeafType_eq_none_iff h hctxk, ?_, fun conck => ?_, fun k1 k2 => ?_⟩
  · exact checksSubtypes_findWitnessSubtype (w := ofSubtypes) h hctxk rfl rfl
  · exact checksSubtypes_findWitnessSubtype (w := ofSubtypes.addParticipant conck) h hctxk rfl rfl
  · exact checksSubtypes_findWitnessSubtype
      (w := (ofSubtypes.addParticipant k1).addParticipant k2) h hctxk rfl rfl

/-- `Object`, an abstract class, and a concrete class below it. -/
def concreteBelowAbstract : Hierarchy :=
  ((Hierarchy.object [] false).load ⟨some 0, false, true, false, [], []⟩).load
    ⟨some 1, false, false, false, [], []⟩

theorem loaded_concreteBelowAbstract : concreteBelowAbstract.Loaded := by
  refine .load (.load (.object [] false) ?_) ?_
  · exact ⟨⟨0, by decide, rfl, rfl⟩, by simp, List.nodup_nil, by simp⟩
  · exact ⟨⟨1, by decide, rfl, rfl⟩, by simp, List.nodup_nil, by simp⟩

theorem check_subtypes_concreteBelowAbstract :
    ChecksSubtypes concreteBelowAbstract 1 [2]
      (checkAbstractWithUniqueConcreteSubtype concreteBelowAbstract false 1 2 none) :=
  (check_subtypes loaded_concreteBelowAbstract (by decide) false).2.2.1 2

/-- The one concrete class below the abstract one is below `Object`, too, but the check
finds it. -/
theorem checkAbstractWithUniqueConcreteSubtype_above :
    concreteBelowAbstract.Loaded ∧ (concreteBelowAbstract.klass 1).isInterface = false ∧
      (∀ c, ConcreteSubtype concreteBelowAbstract 1 c → concreteBelowAbstract.IsSubtype c 0) ∧
      checkAbstractWithUniqueConcreteSubtype concreteBelowAbstract false 1 0 none =
        some (some 2) := by
  refine ⟨loaded_concreteBelowAbstract, rfl, fun c hc => ?_, by decide⟩
  exact (loaded_concreteBelowAbstract.shaped.declared.isSubclass_zero hc.1).isSubtype

end Dependencies

/-! ## Dependencies on methods

A dependency says that only one method of some name and signature is selected below a
context type. The search looks at what is declared below it; what a class there inherits
from elsewhere is not looked at.
-/

namespace Hierarchy

variable (H)

/-- `instanceKlass::uncached_lookup_method`, over so many superclasses. -/
def lookupMethodFrom (name signature : ClassFileParser.Bytes) : Nat → Nat → Option MethodOop
  | 0, _ => none
  | depth + 1, k =>
    match H.findMethod k name signature with
    | some m => some m
    | none => (H.klass k).super.bind (lookupMethodFrom name signature depth)

/-- The method that is selected for a class by walking up from it. -/
def lookupMethod (k : Nat) (name signature : ClassFileParser.Bytes) : Option MethodOop :=
  H.lookupMethodFrom name signature (k + 1) k

variable {H} {name signature : ClassFileParser.Bytes}

theorem findMethod_holder {k : Nat} {m : MethodOop} (h : H.findMethod k name signature = some m) :
    m.holder = k := by
  obtain ⟨decl, -, rfl⟩ := Option.map_eq_some_iff.mp h
  rfl

theorem lookupMethodFrom_spec {depth k : Nat} {m : MethodOop}
    (h : H.lookupMethodFrom name signature depth k = some m) :
    H.IsSubclass k m.holder ∧ H.findMethod m.holder name signature = some m := by
  induction depth generalizing k with
  | zero => cases h
  | succ depth ih =>
    rw [lookupMethodFrom] at h
    split at h
    next m' hfind =>
      obtain rfl := Option.some.inj h
      rw [findMethod_holder hfind]
      exact ⟨Relation.ReflTransGen.refl, hfind⟩
    next =>
      obtain ⟨s, hs, hm⟩ := Option.bind_eq_some_iff.mp h
      obtain ⟨hsub, hfind⟩ := ih hm
      exact ⟨hsub.head hs, hfind⟩

theorem IsSubclass.not_interface (h : Declared H) {c t : Nat} (hc : c < H.count)
    (hclass : (H.klass c).isInterface = false) (hsub : H.IsSubclass c t) :
    (H.klass t).isInterface = false := by
  rcases Relation.ReflTransGen.cases_tail hsub with rfl | ⟨b, hb, hs⟩
  · exact hclass
  · exact (h.super_lt ((h.isSubclass_le hc hb).trans_lt hc) hs).2

end Hierarchy

namespace Dependencies

open ClassHierarchyWalker

variable {verify : Bool} {ctxk : Nat}

/-- A concrete method that is selected for a concrete subtype of the context type. -/
def Selected (H : Hierarchy) (ctxk : Nat) (m s : MethodOop) : Prop :=
  ∃ c, ConcreteSubtype H ctxk c ∧ H.lookupMethod c m.decl.name m.decl.signature = some s ∧
    isConcreteMethod s = true

/-- Below the context type, `fm` is selected for the name and signature of `m`, or no
concrete method is. -/
def DispatchesTo (H : Hierarchy) (ctxk : Nat) (m fm : MethodOop) : Prop :=
  ∀ s, Selected H ctxk m s → s = fm

/-- A method that is selected below the context type and declared elsewhere is `m`. -/
def InheritsOnly (H : Hierarchy) (ctxk : Nat) (m : MethodOop) : Prop :=
  ∀ s, Selected H ctxk m s → ¬ H.IsSubtype s.holder ctxk → s = m

/-- A search for methods that finds no witness has come across what is declared below the
context type and selected there. -/
theorem findWitnessDefiner_selected (h : H.Shaped) (hctxk : ctxk < H.count) {m s : MethodOop}
    {w w' : ClassHierarchyWalker}
    (hdescriptor : w.descriptor = some (m.decl.name, m.decl.signature))
    (hrun : findWitnessAnywhere H false verify w ctxk = some (none, w'))
    (hs : Selected H ctxk m s) (hholder : H.IsSubtype s.holder ctxk) :
    s.holder ∈ w'.participants ∧
      H.findMethod s.holder m.decl.name m.decl.signature = some s := by
  obtain ⟨c, hc, hlookup, hconcrete⟩ := hs
  have hclass := hc.not_interface h.declared
  obtain ⟨hcs, hfind⟩ := Hierarchy.lookupMethodFrom_spec hlookup
  have hsclass := hcs.not_interface h.declared hc.1 hclass
  have hscount := (h.declared.isSubclass_le hc.1 hcs).trans_lt hc.1
  obtain ⟨hgrows, hcovered, himpls⟩ := findWitnessAnywhere_none h hctxk hrun
  have hwitness : w'.isWitness H s.holder = true := by
    rw [isWitness, hgrows.descriptor, hdescriptor]
    simp only [hfind, hconcrete]
  have hfound : ∀ k, Covered H false w' k → H.IsSubclass s.holder k →
      s.holder ∈ w'.participants := by
    intro k hk hsk
    rcases reaches_or_below false w'.participants h.declared hscount hsk with hreaches | ⟨hhide, -⟩
    · exact hk s.holder hreaches hwitness
    · cases hhide
  refine ⟨?_, hfind⟩
  cases hinterface : (H.klass ctxk).isInterface with
  | false =>
    exact hfound ctxk hcovered ((h.declared.isSubtype_class hscount hinterface).mp hholder)
  | true =>
    rcases himpls with ⟨hhide, -⟩ | ⟨hnof, himpls⟩
    · cases hhide
    · obtain ⟨r, hr, hsr⟩ :=
        h.isSubtype_implementor hctxk hinterface hnof hscount hsclass hholder
      exact hfound r (himpls r (by rw [hr]; exact List.mem_cons_self)) hsr

/-- What a search that records one method remembers. -/
theorem findWitnessDefiner_recorded (h : H.Shaped) (hctxk : ctxk < H.count) {m : MethodOop}
    {w' : ClassHierarchyWalker}
    (hrun : findWitnessAnywhere H false verify { ofMethod m with recordWitnesses := 1 } ctxk =
      some (none, w')) :
    (w'.participants = [] ∧ w'.foundMethods 0 = none) ∨
      ∃ k, w'.participants = [k] ∧
        w'.foundMethods 0 = H.findMethod k m.decl.name m.decl.signature := by
  obtain ⟨hgrows, -⟩ := findWitnessAnywhere_none h hctxk hrun
  have hrecorded := hgrows.recorded (fun name signature _ i => rfl) m.decl.name m.decl.signature
    hgrows.descriptor 0
  obtain ⟨new, hparticipants, hlength, -⟩ := hgrows.participants
  rw [hrecorded, hparticipants]
  rcases new with _ | ⟨k, new⟩
  · exact Or.inl ⟨rfl, rfl⟩
  · have hnil : new = [] := List.length_eq_zero_iff.mp (by
      have : new.length + 1 + w'.recordWitnesses = 1 := hlength
      omega)
    exact Or.inr ⟨k, by rw [hnil]; rfl, rfl⟩

theorem passedDown_isSubtype (h : H.Shaped) (ctxk : Nat) :
    PassedDown H fun k => H.IsSubtype k ctxk where
  subclass := fun k c hk _ hsuper => Relation.ReflTransGen.head (Or.inl hsuper) hk
  implementor := fun k r hkcount hk hr => by
    obtain ⟨hrcount, -, hi⟩ := h.implementor_lt hkcount hr
    exact ((h.declared.isSubtype_iff hrcount).mpr (Or.inr hi)).trans hk

/-- The method that is found is the given one, or one that is declared below the context
type; either way it is all that a search for methods has come across. -/
theorem findUniqueConcreteMethod_spec (h : H.Shaped) (hctxk : ctxk < H.count) {m fm : MethodOop}
    (hfind : findUniqueConcreteMethod H verify ctxk m = some (some fm)) :
    (fm = m ∨ H.IsSubtype fm.holder ctxk) ∧ (isConcreteMethod m = true → fm = m) ∧
      ∀ s, Selected H ctxk m s → H.IsSubtype s.holder ctxk → s = fm := by
  rw [findUniqueConcreteMethod] at hfind
  split at hfind
  next => cases hfind
  next => cases hfind
  next w' hrun =>
    have hgathers := findWitnessAnywhere_gathers (passedDown_isSubtype h ctxk) h hctxk
      Relation.ReflTransGen.refl hrun
    have hselected : ∀ s, Selected H ctxk m s → H.IsSubtype s.holder ctxk →
        w'.foundMethods 0 = some s := by
      intro s hs hholder
      obtain ⟨hmem, hdeclared⟩ := findWitnessDefiner_selected h hctxk rfl hrun hs hholder
      rcases findWitnessDefiner_recorded h hctxk hrun with ⟨hnil, -⟩ | ⟨k, hk, hfound⟩
      · rw [hnil] at hmem
        exact absurd hmem List.not_mem_nil
      · rw [hk, List.mem_singleton] at hmem
        rw [hfound, ← hmem, hdeclared]
    have hbelow : ∀ s, w'.foundMethods 0 = some s → H.IsSubtype s.holder ctxk := by
      intro s hs
      rcases findWitnessDefiner_recorded h hctxk hrun with ⟨-, hnone⟩ | ⟨k, hk, hfound⟩
      · rw [hnone] at hs
        cases hs
      · rw [hfound] at hs
        rw [Hierarchy.findMethod_holder hs]
        exact (hgathers k (by rw [hk]; exact List.mem_singleton_self k)).resolve_left
          List.not_mem_nil
    split at hfind
    next hconcrete =>
      simp only at hfind
      split at hfind
      next hnone =>
        obtain rfl : m = fm := Option.some.inj (Option.some.inj hfind)
        refine ⟨Or.inl rfl, fun _ => rfl, fun s hs hholder => ?_⟩
        rw [hselected s hs hholder] at hnone
        cases hnone
      next fm' hfound =>
        split at hfind
        next => cases hfind
        next heq =>
          obtain rfl : fm' = fm := Option.some.inj (Option.some.inj hfind)
          refine ⟨Or.inl (not_not.mp heq), fun _ => not_not.mp heq, fun s hs hholder => ?_⟩
          rw [hselected s hs hholder] at hfound
          exact Option.some.inj hfound
    next hconcrete =>
      have hfound : w'.foundMethods 0 = some fm := Option.some.inj hfind
      refine ⟨Or.inr (hbelow fm hfound), fun h => absurd h hconcrete, fun s hs hholder => ?_⟩
      rw [hselected s hs hholder] at hfound
      exact Option.some.inj hfound

/-- A method that is found is selected below the context type just when nothing is
inherited there from elsewhere but the given method. -/
theorem findUniqueConcreteMethod_dispatchesTo_iff (h : H.Shaped) (hctxk : ctxk < H.count)
    {m fm : MethodOop} (hfind : findUniqueConcreteMethod H verify ctxk m = some (some fm)) :
    DispatchesTo H ctxk m fm ↔ InheritsOnly H ctxk m := by
  obtain ⟨hfm, hconcrete, hselected⟩ := findUniqueConcreteMethod_spec h hctxk hfind
  constructor
  · intro hdispatch s hs hnot
    obtain rfl := hdispatch s hs
    exact hfm.resolve_right hnot
  · intro hinherits s hs
    by_cases hholder : H.IsSubtype s.holder ctxk
    · exact hselected s hs hholder
    · have heq := hinherits s hs hholder
      obtain ⟨c, -, -, hsconcrete⟩ := hs
      rw [heq] at hsconcrete
      rw [heq, hconcrete hsconcrete]

/-- A check that finds no other method is right just when nothing else is inherited below
the context type from elsewhere. -/
theorem checkUniqueConcreteMethod_dispatchesTo_iff (h : H.Shaped) (hctxk : ctxk < H.count)
    {fm : MethodOop}
    (hdeclared : H.findMethod fm.holder fm.decl.name fm.decl.signature = some fm)
    (hcheck : checkUniqueConcreteMethod H verify ctxk fm none = some none) :
    DispatchesTo H ctxk fm fm ↔ InheritsOnly H ctxk fm := by
  obtain ⟨⟨witness, w'⟩, hrun, hwitness⟩ := Option.map_eq_some_iff.mp hcheck
  obtain rfl : witness = none := hwitness
  obtain ⟨hgrows, -⟩ := findWitnessAnywhere_none h hctxk hrun
  constructor
  · exact fun hdispatch s hs _ => hdispatch s hs
  · intro hinherits s hs
    by_cases hholder : H.IsSubtype s.holder ctxk
    · obtain ⟨hmem, hfind⟩ := findWitnessDefiner_selected h hctxk rfl hrun hs hholder
      rw [(hgrows.participants_eq rfl).1] at hmem
      have heq : s.holder = fm.holder := List.mem_singleton.mp hmem
      rw [heq, hdeclared] at hfind
      exact (Option.some.inj hfind).symm
    · exact hinherits s hs hholder

/-- When a unique method that is found or checked is the only one that is selected. -/
theorem uniqueConcreteMethod_dispatchesTo_iff (hloaded : H.Loaded) (hctxk : ctxk < H.count)
    (verify : Bool) :
    (∀ m fm, findUniqueConcreteMethod H verify ctxk m = some (some fm) →
      (DispatchesTo H ctxk m fm ↔ InheritsOnly H ctxk m)) ∧
    ∀ fm, H.findMethod fm.holder fm.decl.name fm.decl.signature = some fm →
      checkUniqueConcreteMethod H verify ctxk fm none = some none →
      (DispatchesTo H ctxk fm fm ↔ InheritsOnly H ctxk fm) :=
  ⟨fun _ _ hfind => findUniqueConcreteMethod_dispatchesTo_iff hloaded.shaped hctxk hfind,
    fun _ hdeclared hcheck =>
      checkUniqueConcreteMethod_dispatchesTo_iff hloaded.shaped hctxk hdeclared hcheck⟩

/-! ## An implementation from elsewhere -/

/-- An interface `1` with an abstract method, a class `2` that declares the method on its
own, a subclass `3` of it that implements the interface, and a subclass `4` of that one
that overrides the method. -/
def inheritedImplementation : Hierarchy :=
  ((((Hierarchy.object [] false).load ⟨some 0, true, true, false, [⟨[109], [], true⟩], []⟩).load
    ⟨some 0, false, false, false, [⟨[109], [], false⟩], []⟩).load
    ⟨some 2, false, false, false, [], [1]⟩).load
    ⟨some 3, false, false, false, [⟨[109], [], false⟩], []⟩

theorem loaded_inheritedImplementation : inheritedImplementation.Loaded := by
  refine .load (.load (.load (.load (.object [] false) ?_) ?_) ?_) ?_
  · exact ⟨⟨0, by decide, rfl, rfl⟩, by simp, List.nodup_nil, by simp⟩
  · exact ⟨⟨0, by decide, rfl, rfl⟩, by simp, List.nodup_nil, by simp⟩
  · exact ⟨⟨2, by decide, rfl, rfl⟩, by decide, by decide, by simp⟩
  · exact ⟨⟨3, by decide, rfl, rfl⟩, by simp, List.nodup_nil, by simp⟩

/-- The method of the subclass `4`, which is what `m` has as its only implementation. -/
def overridingMethod : MethodOop := ⟨4, [109], [], false⟩

theorem uniqueConcreteMethod_dispatchesTo_inheritedImplementation :
    DispatchesTo inheritedImplementation 1 ⟨1, [109], [], true⟩ overridingMethod ↔
      InheritsOnly inheritedImplementation 1 ⟨1, [109], [], true⟩ :=
  (uniqueConcreteMethod_dispatchesTo_iff loaded_inheritedImplementation (by decide) false).1
    ⟨1, [109], [], true⟩ overridingMethod (by decide)

/-- The method of the subclass is found and passes its check, but the class `3` inherits
another one from outside the interface. -/
theorem findUniqueConcreteMethod_inheritedImplementation :
    inheritedImplementation.Loaded ∧
      inheritedImplementation.findMethod 1 [109] [] = some ⟨1, [109], [], true⟩ ∧
      findUniqueConcreteMethod inheritedImplementation false 1 ⟨1, [109], [], true⟩ =
        some (some overridingMethod) ∧
      checkUniqueConcreteMethod inheritedImplementation false 1 overridingMethod none =
        some none ∧
      inheritedImplementation.lookupMethod 3 [109] [] = some ⟨2, [109], [], false⟩ ∧
      ¬ DispatchesTo inheritedImplementation 1 ⟨1, [109], [], true⟩ overridingMethod := by
  refine ⟨loaded_inheritedImplementation, by decide, by decide, by decide, by decide, ?_⟩
  intro hdispatch
  have hsubtype : inheritedImplementation.IsSubtype 3 1 :=
    Relation.ReflTransGen.single (Or.inr (by decide))
  have hselected : Selected inheritedImplementation 1 ⟨1, [109], [], true⟩
      ⟨2, [109], [], false⟩ := ⟨3, ⟨by decide, by decide, hsubtype⟩, by decide, by decide⟩
  exact absurd (hdispatch _ hselected) (by decide)

end Dependencies

end HotSpot
