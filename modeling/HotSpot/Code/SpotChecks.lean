import HotSpot.Code.SubtypeDependencies

/-! # Spot checks

When a class is loaded, only the dependencies on its supertypes are checked again, and
only against the new class. This finds what a check over the whole hierarchy would find.
-/

namespace HotSpot

open Dependencies

variable {H : Hierarchy}

/-! ## The marks -/

namespace DepChange.ContextStream

theorem klasses_newImpl (H : Hierarchy) (base : List Nat) (klass : Option Nat) {i fuel : Nat}
    (hi : i ≤ base.length) (hfuel : base.length - i < fuel) :
    klasses H fuel ⟨.newImpl, klass, base, i, base.length⟩ = some (base.drop i) := by
  induction fuel generalizing i klass with
  | zero => exact absurd hfuel (Nat.not_lt_zero _)
  | succ fuel ih =>
    simp only [klasses, next, nextImpl]
    rcases Nat.lt_or_ge i base.length with hlt | hge
    · rw [if_pos hlt]
      simp only
      rw [ih _ (by omega) (by omega), List.getElem?_eq_getElem hlt,
        List.drop_eq_getElem_cons hlt]
      rfl
    · rw [if_neg (by omega), List.drop_eq_nil_of_le hge]

/-- The superclasses first, and then the transitive interfaces. -/
theorem klasses_newSub (h : H.Declared) (base : List Nat) (limit fuel : Nat) {k : Nat}
    (hk : k < H.count) {changeType : ChangeType}
    (hchange : changeType = .newType ∨ changeType = .newSub)
    (hfuel : k + base.length + 1 < fuel + 1) :
    ∃ supers, klasses H fuel ⟨changeType, some k, base, 0, limit⟩ = some (supers ++ base) ∧
      supers.Pairwise (· > ·) ∧ ∀ p, p ∈ supers ↔ H.IsSubclass k p ∧ p ≠ k := by
  induction k using Nat.strong_induction_on generalizing changeType fuel with
  | _ k ih =>
    obtain ⟨fuel, rfl⟩ := Nat.exists_eq_succ_of_ne_zero (n := fuel) (by omega)
    have hnext : next H ⟨changeType, some k, base, 0, limit⟩ =
        nextSub H ⟨changeType, some k, base, 0, limit⟩ := by
      rcases hchange with rfl | rfl <;> rfl
    rw [klasses, hnext]
    cases hs : (H.klass k).super with
    | none =>
      have himpl := klasses_newImpl H base none (Nat.zero_le _)
        (by omega : base.length - 0 < fuel + 1)
      rw [klasses] at himpl
      refine ⟨[], ?_, List.Pairwise.nil, fun p => ?_⟩
      · simp only [nextSub, Option.bind_some, hs, List.nil_append]
        exact himpl
      · refine iff_of_false List.not_mem_nil ?_
        rintro ⟨hsub, hne⟩
        rcases Relation.ReflTransGen.cases_head hsub with rfl | ⟨s, hs', -⟩
        · exact hne rfl
        · rw [hs] at hs'
          cases hs'
    | some s =>
      obtain ⟨hlt, -⟩ := h.super_lt hk hs
      obtain ⟨supers, hrun, hsorted, hmem⟩ := ih s hlt fuel (hlt.trans hk)
        (Or.inr (rfl : ChangeType.newSub = .newSub)) (by omega)
      have hbelow : ∀ p ∈ supers, p < s := fun p hp => by
        obtain ⟨hsub, hne⟩ := (hmem p).mp hp
        exact Nat.lt_of_le_of_ne (h.isSubclass_le (hlt.trans hk) hsub) hne
      refine ⟨s :: supers, ?_, List.pairwise_cons.mpr ⟨hbelow, hsorted⟩, fun p => ?_⟩
      · simp only [nextSub, Option.bind_some, hs]
        rw [hrun]
        rfl
      · rw [List.mem_cons, hmem p]
        constructor
        · rintro (rfl | ⟨hsub, -⟩)
          · exact ⟨Relation.ReflTransGen.single hs, Nat.ne_of_lt hlt⟩
          · have hle := h.isSubclass_le (hlt.trans hk) hsub
            exact ⟨hsub.head hs, by omega⟩
        · rintro ⟨hsub, hne⟩
          rcases Relation.ReflTransGen.cases_head hsub with rfl | ⟨s', hs', hsub'⟩
          · exact absurd rfl hne
          · obtain rfl := Option.some.inj (hs.symm.trans hs')
            by_cases hps : p = s
            · exact Or.inl hps
            · exact Or.inr ⟨hsub', hps⟩

end DepChange.ContextStream

/-- A new class marks its supertypes, each of them once. -/
theorem DepChange.mark_spec (h : H.Declared) {n : Nat} (hn : n < H.count) :
    ∃ changes, DepChange.mark H n = some changes ∧ changes.newType = n ∧ changes.marked.Nodup ∧
      ∀ k, k ∈ changes.marked ↔ H.IsSubtype n k := by
  obtain ⟨supers, hrun, hsorted, hmem⟩ := ContextStream.klasses_newSub h
    (H.klass n).transitiveInterfaces 0 (H.count + (H.klass n).transitiveInterfaces.length + 1) hn
    (Or.inl (rfl : ChangeType.newType = .newType)) (by omega)
  refine ⟨⟨n, n :: (supers ++ (H.klass n).transitiveInterfaces)⟩, ?_, rfl, ?_, fun k => ?_⟩
  · change Option.map (DepChange.mk n) (Option.map _ (ContextStream.klasses H _
      ⟨.newType, some n, (H.klass n).transitiveInterfaces, 0, 0⟩)) = _
    rw [hrun]
    rfl
  · have hsupers : supers.Nodup := hsorted.imp fun hgt => Nat.ne_of_gt hgt
    refine List.nodup_cons.mpr ⟨fun hmem' => ?_, List.nodup_append.mpr
      ⟨hsupers, h.nodup n hn, fun p hp i hi hpi => ?_⟩⟩
    · rcases List.mem_append.mp hmem' with hn' | hn'
      · exact ((hmem n).mp hn').2 rfl
      · exact Nat.lt_irrefl n (h.transitive_lt hn hn').1
    · -- A proper superclass is not an interface.
      obtain ⟨hsub, hne⟩ := (hmem p).mp hp
      rcases Relation.ReflTransGen.cases_tail hsub with rfl | ⟨b, hb, hs⟩
      · exact hne rfl
      · have hclass := (h.super_lt ((h.isSubclass_le hn hb).trans_lt hn) hs).2
        rw [hpi, (h.transitive_lt hn hi).2] at hclass
        cases hclass
  · rw [h.isSubtype_iff hn, List.mem_cons, List.mem_append, hmem k]
    constructor
    · rintro (rfl | ⟨hsub, -⟩ | hi)
      · exact Or.inl Relation.ReflTransGen.refl
      · exact Or.inl hsub
      · exact Or.inr hi
    · rintro (hsub | hi)
      · by_cases hkn : k = n
        · exact Or.inl hkn
        · exact Or.inr (Or.inl ⟨hsub, hkn⟩)
      · exact Or.inr (Or.inr hi)

/-! ## Finalizers -/

namespace Dependencies

/-- No class from this one down has a finalizer. -/
def FinalizerFree (H : Hierarchy) (k : Nat) : Prop :=
  ∀ c < H.count, H.IsSubclass c k → (H.klass c).isInterface = false →
    (H.klass c).hasFinalizer = false

theorem isSubclass_interface (h : H.Declared) {c k : Nat} (hc : c < H.count)
    (hinterface : (H.klass k).isInterface = true) (hsub : H.IsSubclass c k) : c = k := by
  rcases Relation.ReflTransGen.cases_tail hsub with rfl | ⟨b, hb, hs⟩
  · rfl
  · rw [(h.super_lt ((h.isSubclass_le hc hb).trans_lt hc) hs).2] at hinterface
    cases hinterface

theorem finalizerFree_iff (h : H.Declared) {k : Nat} (hk : k < H.count) :
    FinalizerFree H k ↔ (H.klass k).isInterface = true ∨ (H.klass k).hasFinalizer = false ∧
      ∀ c < H.count, (H.klass c).super = some k → FinalizerFree H c := by
  constructor
  · intro hfree
    cases hinterface : (H.klass k).isInterface with
    | true => exact Or.inl rfl
    | false =>
      exact Or.inr ⟨hfree k hk Relation.ReflTransGen.refl hinterface,
        fun c _ hs c' hc' hsub => hfree c' hc' (hsub.tail hs)⟩
  · rintro (hinterface | ⟨hk', hbelow⟩) c hc hsub hclass
    · rw [isSubclass_interface h hc hinterface hsub, hinterface] at hclass
      cases hclass
    · rcases Relation.ReflTransGen.cases_tail hsub with rfl | ⟨b, hb, hs⟩
      · exact hk'
      · exact hbelow b ((h.isSubclass_le hc hb).trans_lt hc) hs c hc hb hclass

/-- What is found at a class, given what is found among its subclasses. -/
theorem finalizerFree_test (h : H.Declared) {k : Nat} (hk : k < H.count)
    {below : Option (Option Nat)} (hbelow : ∃ result, below = some result ∧
      (result = none ↔ ∀ c < H.count, (H.klass c).super = some k → FinalizerFree H c)) :
    ∃ result, (if (H.klass k).isInterface then some none
      else if (H.klass k).hasFinalizer then some (some k)
      else below) = some result ∧ (result = none ↔ FinalizerFree H k) := by
  rw [finalizerFree_iff h hk]
  split
  next hinterface => exact ⟨none, rfl, by simp [hinterface]⟩
  next hclass =>
    split
    next hfinalizer => exact ⟨some k, rfl, by simp [hclass, hfinalizer]⟩
    next hfinalizer =>
      obtain ⟨result, hrun, hresult⟩ := hbelow
      exact ⟨result, hrun, by simp [hresult, hclass, hfinalizer]⟩

theorem findFinalizableSibling_spec (h : H.Shaped) {fuel : Nat} {cursor : Option Nat}
    {l : List Nat} (hcursor : H.SiblingsFrom cursor l) (hfuel : H.weight l < fuel) :
    ∃ result, findFinalizableSibling H fuel cursor = some result ∧
      (result = none ↔ ∀ k ∈ l, FinalizerFree H k) := by
  induction fuel generalizing cursor l with
  | zero => exact absurd hfuel (Nat.not_lt_zero _)
  | succ fuel ih =>
    cases cursor with
    | none =>
      obtain rfl := hcursor.none_eq
      exact ⟨none, rfl, by simp⟩
    | some k =>
      obtain ⟨rest, rfl, hk, hnext⟩ := hcursor.some_eq
      have hpos := Nat.one_le_two_pow (n := H.count - k)
      rw [Hierarchy.weight_cons] at hfuel
      obtain ⟨after, hafter, hrest⟩ := ih hnext (by omega)
      obtain ⟨l', hl', hmem, hweight⟩ := h.subclasses hk
      obtain ⟨below, hbelow, hfree⟩ := ih hl' (by omega)
      obtain ⟨result, hrun, hresult⟩ := finalizerFree_test h.declared hk
        ⟨below, hbelow, by simp only [hfree, hmem, and_imp]⟩
      rw [findFinalizableSibling]
      simp only [hrun]
      cases result with
      | none =>
        refine ⟨after, hafter, ?_⟩
        rw [hrest, List.forall_mem_cons]
        exact (and_iff_right (hresult.mp rfl)).symm
      | some witness =>
        refine ⟨some witness, rfl, iff_of_false (by simp) fun hfree => ?_⟩
        have := hresult.mpr (hfree k List.mem_cons_self)
        cases this

theorem findFinalizableSubclass_spec (h : H.Shaped) {k : Nat} (hk : k < H.count) :
    ∃ result, findFinalizableSubclass H k = some result ∧
      (result = none ↔ FinalizerFree H k) := by
  obtain ⟨l, hl, hmem, hweight⟩ := h.subclasses hk
  have hpow : 2 ^ (H.count - k) ≤ 2 ^ (H.count + 1) :=
    Nat.pow_le_pow_right (by omega) (by omega)
  have hlt : H.weight l < 2 ^ (H.count + 1) := by omega
  obtain ⟨below, hbelow, hfree⟩ := findFinalizableSibling_spec h hl hlt
  exact finalizerFree_test h.declared hk ⟨below, hbelow, by simp only [hfree, hmem, and_imp]⟩

/-! ## Whole searches for methods -/

open ClassHierarchyWalker

variable {verify : Bool} {w : ClassHierarchyWalker} {ctxk : Nat}

theorem isWitness_method_class (h : H.Declared) {k : Nat} (hk : k < H.count)
    (hdescriptor : w.descriptor ≠ none) (hwitness : w.isWitness H k = true) :
    (H.klass k).isInterface = false := by
  cases hinterface : (H.klass k).isInterface with
  | false => rfl
  | true =>
    rw [isWitness] at hwitness
    split at hwitness
    next hnone => exact absurd hnone hdescriptor
    next name signature _ =>
      split at hwitness
      next => cases hwitness
      next m hfind =>
        obtain ⟨decl, hdecl, rfl⟩ := Option.map_eq_some_iff.mp hfind
        have habstract := (h.interface k hk hinterface).2.2 decl (List.mem_of_find?_eq_some hdecl)
        simp [isConcreteMethod, habstract] at hwitness

/-- A search for methods finds no witness just when the context type has one implementor
at most, and each class below it that declares a method is a participant. -/
theorem findWitnessDefiner_eq_none_iff (h : H.Shaped) (hctxk : ctxk < H.count)
    (hpos : 0 < ctxk) (hdescriptor : w.descriptor ≠ none) (hrecord : w.recordWitnesses = 0) :
    w.findWitnessDefiner H verify ctxk none = some none ↔ (H.klass ctxk).nofImplementors ≤ 1 ∧
      ∀ j < H.count, H.IsSubtype j ctxk → w.isWitness H j = true → j ∈ w.participants := by
  constructor
  · intro hnone
    obtain ⟨⟨witness, w'⟩, hrun, hwitness⟩ := Option.map_eq_some_iff.mp hnone
    obtain rfl : witness = none := hwitness
    obtain ⟨hgrows, hcovered, himpls⟩ := findWitnessAnywhere_none h hctxk hrun
    obtain ⟨hnof, himpls⟩ := himpls.resolve_left fun hhide => Bool.noConfusion hhide.1
    refine ⟨hnof, fun j hj hsub hwitness => ?_⟩
    have hclass := isWitness_method_class h.declared hj hdescriptor hwitness
    rw [← (hgrows.participants_eq hrecord).1]
    rw [← hgrows.isWitness] at hwitness
    have hfound : ∀ k, Covered H false w' k → H.IsSubclass j k → j ∈ w'.participants := by
      intro k hk hjk
      rcases reaches_or_below false w'.participants h.declared hj hjk with hreaches | ⟨hhide, -⟩
      · exact hk j hreaches hwitness
      · cases hhide
    cases hinterface : (H.klass ctxk).isInterface with
    | false => exact hfound ctxk hcovered ((h.declared.isSubtype_class hj hinterface).mp hsub)
    | true =>
      obtain ⟨r, hr, hjr⟩ := h.isSubtype_implementor hctxk hinterface hnof hj hclass hsub
      exact hfound r (himpls r (by rw [hr]; exact List.mem_cons_self)) hjr
  · rintro ⟨hnof, hall⟩
    obtain ⟨⟨witness, w'⟩, hrun⟩ :=
      Option.isSome_iff_exists.mp (findWitnessAnywhere_isSome h false verify hctxk w)
    cases witness with
    | none => rw [findWitnessDefiner, hrun]; rfl
    | some witness =>
      exfalso
      obtain ⟨-, k, hk, hreaches, hwitness, hnot⟩ :=
        findWitnessAnywhere_some h hctxk hpos hnof hrecord hrun
      have hkcount : k < H.count ∧ H.IsSubtype k ctxk := by
        rcases hk with rfl | hk
        · exact ⟨hctxk, Relation.ReflTransGen.refl⟩
        · obtain ⟨hkcount, -, hi⟩ := h.implementor_lt hctxk hk
          exact ⟨hkcount, (h.declared.isSubtype_iff hkcount).mpr (Or.inr hi)⟩
      have hwcount : witness < H.count := by
        rcases Relation.ReflTransGen.cases_tail hreaches with rfl | ⟨a, -, hstep⟩
        · exact hkcount.1
        · exact hstep.1
      exact hnot (hall witness hwcount (hreaches.isSubclass.isSubtype.trans hkcount.2) hwitness)

end Dependencies

/-! ## Agreement -/

section Agreement

open ClassHierarchyWalker

variable {d : KlassDecl} {changes : DepChange}

/-- The marks for a class that was just loaded. -/
structure Marks (H : Hierarchy) (d : KlassDecl) (changes : DepChange) : Prop where
  newType : changes.newType = H.count
  marked : ∀ k, changes.involvesContext k = true ↔ (H.load d).IsSubtype H.count k

/-- The result for a context type, at which only a marked one is looked at, against that of
the check over the whole hierarchy. -/
def Agree (changes : DepChange) (ctxk : Nat) (spot full : Option (Option Nat)) : Prop :=
  ∃ witness, full = some witness ∧ ∃ witness',
    (if !changes.involvesContext ctxk then some none else spot) = some witness' ∧
      (witness' = none ↔ witness = none)

theorem findMethod_load (h : H.Shaped) (hd : H.Loadable d) {k : Nat} (hk : k < H.count)
    (name signature : ClassFileParser.Bytes) :
    (H.load d).findMethod k name signature = H.findMethod k name signature := by
  rw [Hierarchy.findMethod, Hierarchy.findMethod,
    congrArg KlassDecl.methods (h.decl_load hd hk)]

theorem isWitness_load (h : H.Shaped) (hd : H.Loadable d) {k : Nat} (hk : k < H.count)
    (w : ClassHierarchyWalker) : w.isWitness (H.load d) k = w.isWitness H k := by
  rw [isWitness, isWitness]
  split
  next => rw [isConcreteKlass, isConcreteKlass, congrArg KlassDecl.isAbstract (h.decl_load hd hk)]
  next => rw [findMethod_load h hd hk]

theorem isInterface_load (h : H.Shaped) (hd : H.Loadable d) {k : Nat} (hk : k < H.count) :
    ((H.load d).klass k).isInterface = (H.klass k).isInterface :=
  congrArg KlassDecl.isInterface (h.decl_load hd hk)

/-- A concrete subtype is an old one, or the new class. -/
theorem concreteSubtype_load (h : H.Shaped) (hd : H.Loadable d) {ctxk c : Nat}
    (hc : ConcreteSubtype (H.load d) ctxk c) :
    ConcreteSubtype H ctxk c ∨
      c = H.count ∧ isConcreteKlass (H.load d) H.count = true ∧
        (H.load d).IsSubtype H.count ctxk := by
  obtain ⟨hlt, hconcrete, hsub⟩ := hc
  rw [h.count_load hd] at hlt
  rcases Nat.lt_succ_iff_lt_or_eq.mp hlt with hlt | rfl
  · refine Or.inl ⟨hlt, ?_, (h.isSubtype_load hd hlt).mp hsub⟩
    rw [← hconcrete, isConcreteKlass, isConcreteKlass,
      congrArg KlassDecl.isAbstract (h.decl_load hd hlt)]
  · exact Or.inr ⟨rfl, hconcrete, hsub⟩

theorem findWitnessIn_isWitness {w : ClassHierarchyWalker} {k : Nat}
    (hrecord : w.recordWitnesses = 0) :
    (w.isWitness H k && !((w.memoize H k).ignoreWitness k).1) = w.isWitness H k := by
  have hsame : (w.memoize H k).recordWitnesses = 0 := by
    rw [memoize]
    split <;> exact hrecord
  rw [ignoreWitness, if_pos hsame]
  simp

/-- Both ways to look for subtypes, when the classes that are named are below the context. -/
theorem agree_findWitnessSubtype (h : H.Shaped) (hd : H.Loadable d) (hmarks : Marks H d changes)
    {verify : Bool} {ctxk : Nat} (hctxk : ctxk < H.count) {w : ClassHierarchyWalker}
    (hdescriptor : w.descriptor = none) (hrecord : w.recordWitnesses = 0)
    (hnamed : ∀ p ∈ w.participants, p < H.count ∧ (H.klass p).isInterface = false ∧
      H.IsSubtype p ctxk)
    (hold : w.findWitnessSubtype H verify ctxk none = some none) :
    Agree changes ctxk (w.findWitnessSubtype (H.load d) verify ctxk (some changes))
      (w.findWitnessSubtype (H.load d) verify ctxk none) := by
  have hload := h.load hd
  have hctxk' : ctxk < (H.load d).count := by
    rw [h.count_load hd]
    exact Nat.lt_succ_of_lt hctxk
  have hnamed' : ∀ p ∈ w.participants, p < (H.load d).count ∧
      ((H.load d).klass p).isInterface = false ∧ (H.load d).IsSubtype p ctxk := by
    intro p hp
    obtain ⟨hpcount, hclass, hsub⟩ := hnamed p hp
    exact ⟨by rw [h.count_load hd]; exact Nat.lt_succ_of_lt hpcount,
      by rw [isInterface_load h hd hpcount]; exact hclass, (h.isSubtype_load hd hpcount).mpr hsub⟩
  have hchecks : ChecksSubtypes (H.load d) ctxk w.participants
      (w.findWitnessSubtype (H.load d) verify ctxk none) :=
    checksSubtypes_findWitnessSubtype hload hctxk' hdescriptor hrecord
  obtain ⟨witness, hfull⟩ := Option.isSome_iff_exists.mp hchecks.ends
  refine ⟨witness, hfull, ?_⟩
  -- The old classes are accounted for by the old check.
  have holdNamed : ∀ c, ConcreteSubtype H ctxk c →
      ∃ p ∈ w.participants, (H.load d).IsSubtype c p := by
    intro c hc
    obtain ⟨p, hp, hcp⟩ := findWitnessSubtype_sound h hctxk hdescriptor hrecord hold hc
    exact ⟨p, hp, (h.isSubtype_load hd hc.1).mpr hcp⟩
  have hnof : witness = none → ((H.load d).klass ctxk).nofImplementors ≤ 1 := by
    rintro rfl
    obtain ⟨⟨witness, w'⟩, hrun, hwitness⟩ := Option.map_eq_some_iff.mp hfull
    obtain rfl : witness = none := hwitness
    obtain ⟨hgrows, -, himpls⟩ := findWitnessAnywhere_none hload hctxk' hrun
    rcases himpls with ⟨-, hmem⟩ | ⟨hnof, -⟩
    · rw [(hgrows.participants_eq hrecord).1] at hmem
      rw [hload.nofImplementors_class hctxk' (hnamed' ctxk hmem).2.1]
      exact Nat.zero_le 1
    · exact hnof
  have hcomplete : ((H.load d).klass ctxk).nofImplementors ≤ 1 →
      (isConcreteKlass (H.load d) H.count = true → (H.load d).IsSubtype H.count ctxk →
        ∃ p ∈ w.participants, (H.load d).IsSubtype H.count p) → witness = none := by
    intro hsingle hnew
    have hnone := hchecks.complete (Or.inr hsingle) hnamed' fun c hc => by
      rcases concreteSubtype_load h hd hc with hc | ⟨rfl, hconcrete, hsub⟩
      · exact holdNamed c hc
      · exact hnew hconcrete hsub
    exact Option.some.inj (hfull.symm.trans hnone)
  by_cases hsub : (H.load d).IsSubtype H.count ctxk
  · have hinvolved := (hmarks.marked ctxk).mpr hsub
    refine ⟨_, by rw [hinvolved]; rfl, ?_⟩
    rw [findWitnessIn, findWitnessIn_isWitness hrecord, hmarks.newType]
    split
    next hmany =>
      refine iff_of_false (by simp) fun hnone => ?_
      have := hnof hnone
      omega
    next hsingle =>
      have hany : (true && w.participants.any changes.involvesContext) = true ↔
          ∃ p ∈ w.participants, (H.load d).IsSubtype H.count p := by
        simp only [Bool.true_and, List.any_eq_true, hmarks.marked]
      split
      next hhidden =>
        exact iff_of_true rfl (hcomplete (by omega) fun _ _ => hany.mp hhidden)
      next hexposed =>
        have hconcrete : w.isWitness (H.load d) H.count = isConcreteKlass (H.load d) H.count := by
          rw [isWitness, hdescriptor]
        rw [hconcrete]
        split
        next hnew =>
          refine iff_of_false (by simp) fun hnone => hexposed (hany.mpr ?_)
          refine hchecks.sound (hnone ▸ hfull) H.count ⟨?_, hnew, hsub⟩
          rw [h.count_load hd]
          exact Nat.lt_succ_self _
        next hnew => exact iff_of_true rfl (hcomplete (by omega) fun hc => absurd hc hnew)
  · have hinvolved : changes.involvesContext ctxk = false := by
      rw [Bool.eq_false_iff]
      exact fun hinvolved => hsub ((hmarks.marked ctxk).mp hinvolved)
    refine ⟨none, by rw [hinvolved]; rfl, iff_of_true rfl (hcomplete ?_ fun _ h => absurd h hsub)⟩
    rw [h.nofImplementors_load hd hctxk hsub]
    obtain ⟨⟨witness', w'⟩, hrun, hwitness⟩ := Option.map_eq_some_iff.mp hold
    obtain rfl : witness' = none := hwitness
    obtain ⟨hgrows, -, himpls⟩ := findWitnessAnywhere_none h hctxk hrun
    rcases himpls with ⟨-, hmem⟩ | ⟨hnof, -⟩
    · rw [(hgrows.participants_eq hrecord).1] at hmem
      rw [h.nofImplementors_class hctxk (hnamed ctxk hmem).2.1]
      exact Nat.zero_le 1
    · exact hnof

/-- Both ways to look for methods, below a context type other than `Object`. -/
theorem agree_findWitnessDefiner (h : H.Shaped) (hd : H.Loadable d) (hmarks : Marks H d changes)
    {verify : Bool} {ctxk : Nat} (hctxk : ctxk < H.count) (hpos : 0 < ctxk)
    {w : ClassHierarchyWalker} (hdescriptor : w.descriptor ≠ none)
    (hrecord : w.recordWitnesses = 0) (hnamed : ∀ p ∈ w.participants, p < H.count)
    (hold : w.findWitnessDefiner H verify ctxk none = some none) :
    Agree changes ctxk (w.findWitnessDefiner (H.load d) verify ctxk (some changes))
      (w.findWitnessDefiner (H.load d) verify ctxk none) := by
  have hload := h.load hd
  have hcount := h.count_load hd
  have hctxk' : ctxk < (H.load d).count := by omega
  have hiff : w.findWitnessDefiner (H.load d) verify ctxk none = some none ↔ _ :=
    findWitnessDefiner_eq_none_iff hload hctxk' hpos hdescriptor hrecord
  obtain ⟨holdNof, holdNamed⟩ :=
    (findWitnessDefiner_eq_none_iff h hctxk hpos hdescriptor hrecord).mp hold
  obtain ⟨⟨witness, w'⟩, hrun⟩ :=
    Option.isSome_iff_exists.mp (findWitnessAnywhere_isSome hload false verify hctxk' w)
  have hfull : w.findWitnessDefiner (H.load d) verify ctxk none = some witness := by
    rw [findWitnessDefiner, hrun]
    rfl
  rw [hfull] at hiff
  have hiff' : witness = none ↔ ((H.load d).klass ctxk).nofImplementors ≤ 1 ∧
      ((H.load d).IsSubtype H.count ctxk → w.isWitness (H.load d) H.count = false) := by
    rw [← Option.some_inj, hiff]
    refine and_congr_right fun _ => ⟨fun hall hsub => ?_, fun hnew j hj hsub hwitness => ?_⟩
    · rw [Bool.eq_false_iff]
      intro hwitness
      have := hnamed H.count (hall H.count (by omega) hsub hwitness)
      omega
    · rw [hcount] at hj
      rcases Nat.lt_succ_iff_lt_or_eq.mp hj with hj | rfl
      · rw [isWitness_load h hd hj] at hwitness
        exact holdNamed j hj ((h.isSubtype_load hd hj).mp hsub) hwitness
      · rw [hnew hsub] at hwitness
        cases hwitness
  refine ⟨witness, hfull, ?_⟩
  by_cases hsub : (H.load d).IsSubtype H.count ctxk
  · have hinvolved := (hmarks.marked ctxk).mpr hsub
    refine ⟨_, by rw [hinvolved]; rfl, ?_⟩
    rw [findWitnessIn, findWitnessIn_isWitness hrecord, hmarks.newType, hiff']
    split
    next hmany => exact iff_of_false (by simp) fun hnone => by have := hnone.1; omega
    next hsingle =>
      rw [if_neg (by simp)]
      split
      next hnew =>
        exact iff_of_false (by simp) fun hnone => by rw [hnone.2 hsub] at hnew; cases hnew
      next hnew => exact iff_of_true rfl ⟨by omega, fun _ => Bool.eq_false_iff.mpr hnew⟩
  · have hinvolved : changes.involvesContext ctxk = false := by
      rw [Bool.eq_false_iff]
      exact fun hinvolved => hsub ((hmarks.marked ctxk).mp hinvolved)
    refine ⟨none, by rw [hinvolved]; rfl, iff_of_true rfl (hiff'.mpr ⟨?_, fun h => absurd h hsub⟩)⟩
    rw [h.nofImplementors_load hd hctxk hsub]
    exact holdNof

theorem agree_checkLeafType (h : H.Shaped) (hd : H.Loadable d) (hmarks : Marks H d changes)
    {ctxk : Nat} (hctxk : ctxk < H.count) (hold : checkLeafType H ctxk = none) :
    Agree changes ctxk (some (checkLeafType (H.load d) ctxk))
      (some (checkLeafType (H.load d) ctxk)) := by
  have hcount := h.count_load hd
  refine ⟨_, rfl, ?_⟩
  by_cases hsub : (H.load d).IsSubtype H.count ctxk
  · exact ⟨_, by rw [(hmarks.marked ctxk).mpr hsub]; rfl, Iff.rfl⟩
  · have hinvolved : changes.involvesContext ctxk = false := by
      rw [Bool.eq_false_iff]
      exact fun hinvolved => hsub ((hmarks.marked ctxk).mp hinvolved)
    refine ⟨none, by rw [hinvolved]; rfl, iff_of_true rfl ?_⟩
    rw [checkLeafType_eq_none_iff h hctxk] at hold
    rw [checkLeafType_eq_none_iff (h.load hd) (by omega), isInterface_load h hd hctxk]
    split at hold
    next hinterface =>
      rw [if_pos hinterface]
      intro c hc hclass hcsub
      rw [hcount] at hc
      rcases Nat.lt_succ_iff_lt_or_eq.mp hc with hc | rfl
      · rw [isInterface_load h hd hc] at hclass
        exact hold c hc hclass ((h.isSubtype_load hd hc).mp hcsub)
      · exact hsub hcsub
    next hclass =>
      rw [if_neg hclass]
      intro c hc hcsub
      rw [hcount] at hc
      rcases Nat.lt_succ_iff_lt_or_eq.mp hc with hc | rfl
      · exact hold c hc ((h.isSubtype_load hd hc).mp hcsub)
      · exact absurd hcsub hsub

theorem agree_checkHasNoFinalizableSubclasses (h : H.Shaped) (hd : H.Loadable d)
    (hmarks : Marks H d changes) {ctxk : Nat} (hctxk : ctxk < H.count)
    (hclass : (H.klass ctxk).isInterface = false)
    (hold : checkHasNoFinalizableSubclasses H ctxk none = some none) :
    Agree changes ctxk (checkHasNoFinalizableSubclasses (H.load d) ctxk (some changes))
      (checkHasNoFinalizableSubclasses (H.load d) ctxk none) := by
  have hload := h.load hd
  have hcount := h.count_load hd
  have hclass' : ((H.load d).klass ctxk).isInterface = false := by
    rw [isInterface_load h hd hctxk]
    exact hclass
  obtain ⟨full, hfull, hfullFree⟩ := findFinalizableSubclass_spec (k := ctxk) hload (by omega)
  obtain ⟨new, hnew, hnewFree⟩ := findFinalizableSubclass_spec (k := H.count) hload (by omega)
  obtain ⟨old, hrun, holdFree⟩ := findFinalizableSubclass_spec h hctxk
  obtain rfl : old = none := Option.some.inj (hrun.symm.trans hold)
  have hfree := holdFree.mp rfl
  -- The old classes have no finalizers, so all depends on the new one.
  have hiff : full = none ↔
      ((H.load d).IsSubtype H.count ctxk → FinalizerFree (H.load d) H.count) := by
    rw [hfullFree]
    constructor
    · intro hall hsub c hc hcnew hcclass
      have hsub' := (hload.declared.isSubtype_class (by omega) hclass').mp hsub
      exact hall c hc (hcnew.trans hsub') hcclass
    · intro hnew c hc hcsub hcclass
      rw [hcount] at hc
      rcases Nat.lt_succ_iff_lt_or_eq.mp hc with hc | rfl
      · have hcold := (h.isSubtype_load hd hc).mp hcsub.isSubtype
        rw [congrArg KlassDecl.hasFinalizer (h.decl_load hd hc)]
        refine hfree c hc ((h.declared.isSubtype_class hc hclass).mp hcold) ?_
        rw [← isInterface_load h hd hc]
        exact hcclass
      · exact hnew hcsub.isSubtype H.count (by omega) Relation.ReflTransGen.refl hcclass
  refine ⟨full, hfull, ?_⟩
  by_cases hsub : (H.load d).IsSubtype H.count ctxk
  · refine ⟨new, ?_, by rw [hnewFree, hiff]; exact ⟨fun h _ => h, fun h => h hsub⟩⟩
    rw [(hmarks.marked ctxk).mpr hsub]
    change findFinalizableSubclass (H.load d) changes.newType = _
    rw [hmarks.newType, hnew]
  · have hinvolved : changes.involvesContext ctxk = false := by
      rw [Bool.eq_false_iff]
      exact fun hinvolved => hsub ((hmarks.marked ctxk).mp hinvolved)
    exact ⟨none, by rw [hinvolved]; rfl, iff_of_true rfl (hiff.mpr fun h => absurd h hsub)⟩

end Agreement

/-! ## Dependencies -/

namespace Dependency

/-- A type that a dependency names next to its context: a class below it. -/
def NamedType (H : Hierarchy) (ctxk k : Nat) : Prop :=
  k < H.count ∧ (H.klass k).isInterface = false ∧ H.IsSubtype k ctxk

/-- What the spot checks rely on: the named types are classes, the context type of a
dependency on methods is not `Object`, and that of one on finalizers is a class. -/
def SpotCheckable (H : Hierarchy) : Dependency → Prop
  | leafType ctxk => ctxk < H.count
  | abstractWithUniqueConcreteSubtype ctxk conck => ctxk < H.count ∧ NamedType H ctxk conck
  | abstractWithNoConcreteSubtype ctxk => ctxk < H.count
  | concreteWithNoConcreteSubtype _ => False
  | uniqueConcreteMethod ctxk uniqm => ctxk < H.count ∧ 0 < ctxk ∧ uniqm.holder < H.count
  | abstractWithExclusiveConcreteSubtypes ctxk k1 k2 =>
    ctxk < H.count ∧ NamedType H ctxk k1 ∧ NamedType H ctxk k2
  | exclusiveConcreteMethods ctxk m1 m2 =>
    ctxk < H.count ∧ 0 < ctxk ∧ m1.holder < H.count ∧ m2.holder < H.count
  | noFinalizableSubclasses ctxk => ctxk < H.count ∧ (H.klass ctxk).isInterface = false

/-- The spot check finds something just when the check over the whole hierarchy does. -/
def SpotAgrees (H : Hierarchy) (verify : Bool) (changes : DepChange) (dep : Dependency) : Prop :=
  ∃ witness, dep.checkDependency H verify = some witness ∧
    ∃ witness', dep.spotCheckDependencyAt H verify changes = some witness' ∧
      (witness' = none ↔ witness = none)

open ClassHierarchyWalker

theorem spotAgrees (h : H.Shaped) {d : KlassDecl} (hd : H.Loadable d) {changes : DepChange}
    (hmarks : Marks H d changes) {verify : Bool} {dep : Dependency} (hdep : dep.SpotCheckable H)
    (hold : dep.checkDependency H verify = some none) :
    dep.SpotAgrees (H.load d) verify changes := by
  cases dep with
  | leafType ctxk => exact agree_checkLeafType h hd hmarks hdep (Option.some.inj hold)
  | abstractWithUniqueConcreteSubtype ctxk conck =>
    refine agree_findWitnessSubtype (w := ofSubtypes.addParticipant conck) h hd hmarks hdep.1 rfl
      rfl (fun p hp => ?_) hold
    rw [List.mem_singleton.mp hp]
    exact hdep.2
  | abstractWithNoConcreteSubtype ctxk =>
    exact agree_findWitnessSubtype (w := ofSubtypes) h hd hmarks hdep rfl rfl
      (fun p hp => absurd hp List.not_mem_nil) hold
  | concreteWithNoConcreteSubtype ctxk => exact hdep.elim
  | uniqueConcreteMethod ctxk uniqm =>
    refine agree_findWitnessDefiner (w := (ofMethod uniqm).addParticipant uniqm.holder) h hd
      hmarks hdep.1 hdep.2.1 nofun rfl (fun p hp => ?_) hold
    rw [List.mem_singleton.mp hp]
    exact hdep.2.2
  | abstractWithExclusiveConcreteSubtypes ctxk k1 k2 =>
    refine agree_findWitnessSubtype (w := (ofSubtypes.addParticipant k1).addParticipant k2) h hd
      hmarks hdep.1 rfl rfl (fun p hp => ?_) hold
    rcases List.mem_cons.mp hp with rfl | hp
    · exact hdep.2.1
    · rw [List.mem_singleton.mp hp]
      exact hdep.2.2
  | exclusiveConcreteMethods ctxk m1 m2 =>
    refine agree_findWitnessDefiner
      (w := ((ofMethod m1).addParticipant m1.holder).addParticipant m2.holder) h hd hmarks hdep.1
      hdep.2.1 nofun rfl (fun p hp => ?_) hold
    rcases List.mem_cons.mp hp with rfl | hp
    · exact hdep.2.2.1
    · rw [List.mem_singleton.mp hp]
      exact hdep.2.2.2
  | noFinalizableSubclasses ctxk =>
    exact agree_checkHasNoFinalizableSubclasses h hd hmarks hdep.1 hdep.2 hold

/-- Loading a class marks its supertypes, and the spot checks of the dependencies that held
find what breaks them. -/
theorem spotCheckDependencyAt_agrees (hloaded : H.Loaded) {d : KlassDecl} (hd : H.Loadable d)
    (verify : Bool) :
    ∃ changes, DepChange.mark (H.load d) H.count = some changes ∧ changes.marked.Nodup ∧
      (∀ k, k ∈ changes.marked ↔ (H.load d).IsSubtype H.count k) ∧
      ∀ dep : Dependency, dep.SpotCheckable H → dep.checkDependency H verify = some none →
        dep.SpotAgrees (H.load d) verify changes := by
  have h := hloaded.shaped
  obtain ⟨changes, hmark, hnew, hnodup, hmarked⟩ := DepChange.mark_spec (h.load hd).declared
    (n := H.count) (by rw [h.count_load hd]; exact Nat.lt_succ_self _)
  refine ⟨changes, hmark, hnodup, hmarked, fun dep hdep hold => ?_⟩
  refine spotAgrees h hd ⟨hnew, fun k => ?_⟩ hdep hold
  rw [← hmarked k, DepChange.involvesContext, List.contains_iff_mem]

/-! ## Disagreement -/

theorem not_spotAgrees (full spot : Option Nat) {verify : Bool} {changes : DepChange}
    {dep : Dependency} (hfull : dep.checkDependency H verify = some full)
    (hspot : dep.spotCheckDependencyAt H verify changes = some spot)
    (hne : spot.isNone ≠ full.isNone) : ¬ dep.SpotAgrees H verify changes := by
  rintro ⟨witness, hwitness, witness', hwitness', hiff⟩
  obtain rfl := Option.some.inj (hfull.symm.trans hwitness)
  obtain rfl := Option.some.inj (hspot.symm.trans hwitness')
  refine hne (Bool.eq_iff_iff.mpr ?_)
  simpa only [Option.isNone_iff_eq_none] using hiff

/-- A dependency that held before a class was loaded, about which the two checks differ. -/
def Disagrees (H : Hierarchy) (d : KlassDecl) (verify : Bool) (dep : Dependency) : Prop :=
  H.Loaded ∧ H.Loadable d ∧ dep.checkDependency H verify = some none ∧
    ∃ changes, DepChange.mark (H.load d) H.count = some changes ∧
      ¬ dep.SpotAgrees (H.load d) verify changes

/-- An interface `1`, and an interface `2` that extends it. -/
def extendedInterface : Hierarchy :=
  ((Hierarchy.object [] false).load ⟨some 0, true, true, false, [], []⟩).load
    ⟨some 0, true, true, false, [], [1]⟩

theorem loaded_extendedInterface : extendedInterface.Loaded := by
  refine .load (.load (.object [] false) ?_) ?_
  · exact ⟨⟨0, by decide, rfl, rfl⟩, by simp, List.nodup_nil, by simp⟩
  · exact ⟨⟨0, by decide, rfl, rfl⟩, by decide, by decide, by simp⟩

/-- An interface `1` with the implementors `2`, which declares a method and has a subclass
`4`, and `3`. -/
def twoImplementors : Hierarchy :=
  ((((Hierarchy.object [] false).load ⟨some 0, true, true, false, [], []⟩).load
    ⟨some 0, false, false, false, [⟨[109], [], false⟩], [1]⟩).load
    ⟨some 0, false, false, false, [], [1]⟩).load ⟨some 2, false, false, false, [], []⟩

theorem loaded_twoImplementors : twoImplementors.Loaded := by
  refine .load (.load (.load (.load (.object [] false) ?_) ?_) ?_) ?_
  · exact ⟨⟨0, by decide, rfl, rfl⟩, by simp, List.nodup_nil, by simp⟩
  · exact ⟨⟨0, by decide, rfl, rfl⟩, by decide, by decide, by simp⟩
  · exact ⟨⟨0, by decide, rfl, rfl⟩, by decide, by decide, by simp⟩
  · exact ⟨⟨2, by decide, rfl, rfl⟩, by simp, List.nodup_nil, by simp⟩

theorem spotCheckDependencyAt_agrees_extendedInterface :
    ∃ changes, DepChange.mark (extendedInterface.load ⟨some 0, false, false, false, [], [2]⟩) 3 =
        some changes ∧
      (Dependency.leafType 1).SpotAgrees
        (extendedInterface.load ⟨some 0, false, false, false, [], [2]⟩) false changes := by
  obtain ⟨changes, hmark, -, -, hagrees⟩ := spotCheckDependencyAt_agrees loaded_extendedInterface
    (d := ⟨some 0, false, false, false, [], [2]⟩)
    ⟨⟨0, by decide, rfl, rfl⟩, by decide, by decide, by simp⟩ false
  exact ⟨changes, hmark, hagrees (.leafType 1) (by decide : 1 < 3) (by decide)⟩

/-- The checks differ when a named type is an interface, which hides the new class from
the spot check alone; for finalizers below an interface, of which only the spot check looks
at the new class; and for methods below `Object`, where a full list of chains makes the
walk take an interface for a context type. -/
theorem spotCheckDependencyAt_disagrees :
    (extendedInterface.IsSubtype 2 1 ∧
      Disagrees extendedInterface ⟨some 0, false, false, false, [], [2]⟩ false
        (.abstractWithUniqueConcreteSubtype 1 2)) ∧
    Disagrees extendedInterface ⟨some 0, false, false, true, [], [2]⟩ false
      (.noFinalizableSubclasses 1) ∧
    Disagrees twoImplementors ⟨some 3, false, false, false, [], []⟩ true
      (.uniqueConcreteMethod 0 ⟨2, [109], [], false⟩) := by
  refine ⟨⟨Relation.ReflTransGen.single (Or.inr (by decide)), loaded_extendedInterface, ?_,
    by decide, ⟨3, [3, 0, 1, 2]⟩, by decide, ?_⟩, ⟨loaded_extendedInterface, ?_, by decide,
    ⟨3, [3, 0, 1, 2]⟩, by decide, ?_⟩, ⟨loaded_twoImplementors, ?_, by decide,
    ⟨5, [5, 3, 0, 1]⟩, by decide, ?_⟩⟩
  · exact ⟨⟨0, by decide, rfl, rfl⟩, by decide, by decide, by simp⟩
  · exact not_spotAgrees (some 3) none (by decide) (by decide) (by decide)
  · exact ⟨⟨0, by decide, rfl, rfl⟩, by decide, by decide, by simp⟩
  · exact not_spotAgrees none (some 3) (by decide) (by decide) (by decide)
  · exact ⟨⟨3, by decide, rfl, rfl⟩, by simp, List.nodup_nil, by simp⟩
  · exact not_spotAgrees (some 1) none (by decide) (by decide) (by decide)

end Dependency

/-! ## Dependencies on concrete classes

The checks of a concrete context type make that type their first participant. A search
for subtypes does not look beneath participants, so that it ends where it begins, and a
class that is loaded below the context type is protected from the check by it.
-/

namespace Dependencies

open ClassHierarchyWalker

variable {ctxk : Nat}

/-- `Dependencies::find_unique_concrete_subtype` -/
def findUniqueConcreteSubtype (H : Hierarchy) (verify : Bool) (ctxk : Nat) : Option (Option Nat) :=
  -- Ignore ctxk when walking, and record one other witness.
  let wf := { ofSubtypes.addParticipant ctxk with recordWitnesses := 1 }
  match findWitnessAnywhere H true verify wf ctxk with
  | none => none
  | some (some _, _) => some none
  | some (none, wf) =>
    match wf.participants[0]? with
    | none => some (some ctxk)
    | some conck => some (some conck)

/-! ## What they are for -/

def ConcreteProperSubtype (H : Hierarchy) (ctxk c : Nat) : Prop :=
  ConcreteSubtype H ctxk c ∧ c ≠ ctxk

/-- A concrete proper subtype that is not beneath another one. -/
def Topmost (H : Hierarchy) (ctxk c : Nat) : Prop :=
  ConcreteProperSubtype H ctxk c ∧
    ∀ p, ConcreteProperSubtype H ctxk p → H.IsSubtype c p → p = c

/-- The check finds nothing when the class is free of concrete proper subtypes, and
something otherwise. -/
def CheckMeans (H : Hierarchy) (verify : Bool) (ctxk : Nat) : Prop :=
  checkConcreteWithNoConcreteSubtype H verify ctxk none = some none ↔
    ∀ c, ¬ ConcreteProperSubtype H ctxk c

/-- When the newest class is a concrete proper subtype, the check of it gives that
class. -/
def SpotCheckMeans (H : Hierarchy) (verify : Bool) (ctxk : Nat) : Prop :=
  ∀ n changes, n + 1 = H.count → DepChange.mark H n = some changes →
    ConcreteProperSubtype H ctxk n →
      checkConcreteWithNoConcreteSubtype H verify ctxk (some changes) = some (some n)

/-- The class itself, its unique topmost concrete proper subtype, or nothing when there
are several. -/
structure FindMeans (H : Hierarchy) (verify : Bool) (ctxk : Nat) : Prop where
  free : (∀ c, ¬ ConcreteProperSubtype H ctxk c) →
    findUniqueConcreteSubtype H verify ctxk = some (some ctxk)
  unique : ∀ c, Topmost H ctxk c → (∀ p, Topmost H ctxk p → p = c) →
    findUniqueConcreteSubtype H verify ctxk = some (some c)
  several : ∀ c p, Topmost H ctxk c → Topmost H ctxk p → c ≠ p →
    findUniqueConcreteSubtype H verify ctxk = some none

structure MeansWhatItSays (H : Hierarchy) (verify : Bool) (ctxk : Nat) : Prop where
  check : CheckMeans H verify ctxk
  spotCheck : SpotCheckMeans H verify ctxk
  find : FindMeans H verify ctxk

/-! ## What they do -/

theorem findWitnessAnywhere_hidden {w : ClassHierarchyWalker} (H : Hierarchy) (verify : Bool)
    (hctxk : ctxk ∈ w.participants) :
    findWitnessAnywhere H true verify w ctxk = some (none, w) := by
  unfold findWitnessAnywhere test
  rw [if_pos hctxk]
  rfl

theorem checkConcreteWithNoConcreteSubtype_none (H : Hierarchy) (verify : Bool) (ctxk : Nat) :
    checkConcreteWithNoConcreteSubtype H verify ctxk none = some none := by
  unfold checkConcreteWithNoConcreteSubtype findWitnessSubtype
  simp only [findWitnessAnywhere_hidden H verify
    (show ctxk ∈ (ofSubtypes.addParticipant ctxk).participants from List.mem_singleton_self ctxk),
    Option.map_some]

/-- A class that was loaded below the context type is hidden by it. -/
theorem checkConcreteWithNoConcreteSubtype_changes (h : H.Shaped) (verify : Bool)
    (hctxk : ctxk < H.count) (hclass : (H.klass ctxk).isInterface = false) {n : Nat}
    (hn : n < H.count) (hsub : H.IsSubtype n ctxk) {changes : DepChange}
    (hmark : DepChange.mark H n = some changes) :
    checkConcreteWithNoConcreteSubtype H verify ctxk (some changes) = some none := by
  obtain ⟨marked, hmarked, -, -, hmem⟩ := DepChange.mark_spec h.declared hn
  obtain rfl := Option.some.inj (hmark.symm.trans hmarked)
  have hinvolved : changes.involvesContext ctxk = true :=
    List.contains_iff_mem.mpr ((hmem ctxk).mpr hsub)
  unfold checkConcreteWithNoConcreteSubtype findWitnessSubtype findWitnessIn
  rw [h.nofImplementors_class hctxk hclass]
  simp [ofSubtypes, addParticipant, hinvolved]

theorem findUniqueConcreteSubtype_eq (H : Hierarchy) (verify : Bool) (ctxk : Nat) :
    findUniqueConcreteSubtype H verify ctxk = some (some ctxk) := by
  unfold findUniqueConcreteSubtype
  simp only [findWitnessAnywhere_hidden H verify
    (show ctxk ∈ { ofSubtypes.addParticipant ctxk with recordWitnesses := 1 }.participants from
      List.mem_singleton_self ctxk)]
  rfl

/-! ## When this is the same -/

/-- With a concrete proper subtype there is a topmost one. -/
theorem exists_topmost (h : H.Declared) {c : Nat} (hc : ConcreteProperSubtype H ctxk c) :
    ∃ p, Topmost H ctxk p := by
  induction c using Nat.strong_induction_on with
  | _ c ih =>
    by_cases htop : ∀ p, ConcreteProperSubtype H ctxk p → H.IsSubtype c p → p = c
    · exact ⟨c, hc, htop⟩
    · push Not at htop
      obtain ⟨p, hp, hcp, hne⟩ := htop
      exact ih p (Nat.lt_of_le_of_ne (h.isSubtype_le hc.1.1 hcp) hne) hp

theorem checkMeans_iff (H : Hierarchy) (verify : Bool) (ctxk : Nat) :
    CheckMeans H verify ctxk ↔ ∀ c, ¬ ConcreteProperSubtype H ctxk c := by
  unfold CheckMeans
  rw [checkConcreteWithNoConcreteSubtype_none]
  exact ⟨fun hmeans => hmeans.mp rfl, fun hfree => iff_of_true rfl hfree⟩

theorem spotCheckMeans_iff (h : H.Shaped) (verify : Bool) (hctxk : ctxk < H.count)
    (hconcrete : isConcreteKlass H ctxk = true) :
    SpotCheckMeans H verify ctxk ↔ ∀ n, n + 1 = H.count → ¬ ConcreteProperSubtype H ctxk n := by
  have hclass := ConcreteSubtype.not_interface h.declared
    ⟨hctxk, hconcrete, Relation.ReflTransGen.refl⟩
  constructor
  · intro hmeans n hn hsub
    have hnlt : n < H.count := hsub.1.1
    obtain ⟨changes, hmark, -⟩ := DepChange.mark_spec h.declared hnlt
    have hfound := hmeans n changes hn hmark hsub
    rw [checkConcreteWithNoConcreteSubtype_changes h verify hctxk hclass hnlt hsub.1.2.2 hmark]
      at hfound
    cases hfound
  · intro hfree n changes hn _ hsub
    exact absurd hsub (hfree n hn)

theorem findMeans_iff (h : H.Declared) (verify : Bool) :
    FindMeans H verify ctxk ↔ ∀ c, ¬ ConcreteProperSubtype H ctxk c := by
  constructor
  · intro hmeans c hc
    obtain ⟨p, hp⟩ := exists_topmost h hc
    by_cases hunique : ∀ q, Topmost H ctxk q → q = p
    · have hfound := hmeans.unique p hp hunique
      rw [findUniqueConcreteSubtype_eq] at hfound
      exact hp.1.2 (Option.some.inj (Option.some.inj hfound)).symm
    · push Not at hunique
      obtain ⟨q, hq, hne⟩ := hunique
      have hfound := hmeans.several q p hq hp hne
      rw [findUniqueConcreteSubtype_eq] at hfound
      cases hfound
  · intro hfree
    exact ⟨fun _ => findUniqueConcreteSubtype_eq H verify ctxk,
      fun c hc => absurd hc.1 (hfree c), fun c _ hc => absurd hc.1 (hfree c)⟩

/-- The dependency means what it says exactly of a class that has no concrete proper
subtype: nothing but the class itself is ever looked at. -/
theorem meansWhatItSays_iff (hloaded : H.Loaded) (verify : Bool) (hctxk : ctxk < H.count)
    (hconcrete : isConcreteKlass H ctxk = true) :
    MeansWhatItSays H verify ctxk ↔ ∀ c, ¬ ConcreteProperSubtype H ctxk c := by
  have h := hloaded.shaped
  constructor
  · intro hmeans
    exact (checkMeans_iff H verify ctxk).mp hmeans.check
  · intro hfree
    exact ⟨(checkMeans_iff H verify ctxk).mpr hfree,
      (spotCheckMeans_iff h verify hctxk hconcrete).mpr fun n _ => hfree n,
      (findMeans_iff h.declared verify).mpr hfree⟩

/-- `Object`, and a concrete class below it. -/
def concreteBelowObject : Hierarchy :=
  (Hierarchy.object [] false).load ⟨some 0, false, false, false, [], []⟩

theorem loaded_concreteBelowObject : concreteBelowObject.Loaded := by
  refine .load (.object [] false) ?_
  exact ⟨⟨0, by decide, rfl, rfl⟩, by simp, List.nodup_nil, by simp⟩

theorem meansWhatItSays_leaf : MeansWhatItSays concreteBelowObject false 1 := by
  refine (meansWhatItSays_iff loaded_concreteBelowObject false (by decide) rfl).mpr ?_
  rintro c ⟨⟨hc, -, hsub⟩, hne⟩
  have hle := loaded_concreteBelowObject.shaped.declared.isSubtype_le hc hsub
  have hcount : concreteBelowObject.count = 2 := by decide
  omega

/-- `Object` has a concrete proper subtype, which was loaded last: neither check finds
it, and `Object` is taken to be its own unique concrete proper subtype. -/
theorem object_not_meansWhatItSays :
    concreteBelowObject.Loaded ∧ isConcreteKlass concreteBelowObject 0 = true ∧
      ConcreteProperSubtype concreteBelowObject 0 1 ∧
      checkConcreteWithNoConcreteSubtype concreteBelowObject false 0 none = some none ∧
      (∃ changes, DepChange.mark concreteBelowObject 1 = some changes ∧
        checkConcreteWithNoConcreteSubtype concreteBelowObject false 0 (some changes) =
          some none) ∧
      findUniqueConcreteSubtype concreteBelowObject false 0 = some (some 0) ∧
      ¬ MeansWhatItSays concreteBelowObject false 0 := by
  have hproper : ConcreteProperSubtype concreteBelowObject 0 1 :=
    ⟨⟨by decide, rfl, Relation.ReflTransGen.single (Or.inl rfl)⟩, by decide⟩
  refine ⟨loaded_concreteBelowObject, rfl, hproper, by decide, ⟨⟨1, [1, 0]⟩, by decide, by decide⟩,
    by decide, fun hmeans => ?_⟩
  exact (checkMeans_iff _ _ _).mp hmeans.check 1 hproper

end Dependencies

end HotSpot
