import HotSpot.Classfile.VerificationType
import HotSpot.Oops.VtableLinking
import Mathlib

/-! # The reserved length of a vtable

When a class is loaded its methods are searched for in the superclasses, when it is linked in
the vtable of the superclass. The two searches can disagree in both directions.
-/

namespace HotSpot

open ClassFileParser Method

namespace LoadedClasses

variable {K : Type} {h : LoadedClasses K} {check : LoaderCheck} {st : LinkState K} {k s : K}
  {t : Method K}

/-- At load time the method `t` of `k` is taken to reuse an entry: a superclass declares a method
that it can override, or the superclass has miranda methods and an interface with the method. -/
def Inherits (h : LoadedClasses K) (k s : K) (t : Method K) : Prop :=
  (∃ a ∈ h.ancestors s, ∃ m ∈ h.methods a, m.Matches t ∧ m.isStatic = false ∧
      m.access ≠ .private_ ∧ h.isOverride a m k = true) ∨
    h.hasMirandaMethods s = true ∧
      (h.lookupMethodInAllInterfaces s t.name t.signature).isSome = true

/-- At link time there is an entry to reuse: its method can be overridden from `k` or, for new
class files, that at the same index in a superclass of the class that declares it. -/
def Reuses (h : LoadedClasses K) (st : LinkState K) (k : K) (t : Method K) : Prop :=
  ∃ (i : Nat) (m : Method K), (h.superTable st k)[i]? = some (some m) ∧ m.Matches t ∧
    (h.isOverride m.holder m k = true ∨
      vtableTransitiveOverrideVersion ≤ h.majorVersion k ∧ ∃ a ∈ h.supers m.holder, ∃ e,
        (st.table a)[i]? = some (some e) ∧ h.isOverride a e k = true)

/-- Neither the method nor its class is final. -/
def MayAllocate (h : LoadedClasses K) (k : K) (t : Method K) : Prop :=
  h.isFinal k = false ∧ t.isFinal = false

/-- The method is taken to reuse an entry, but there is none. -/
def Orphaned (h : LoadedClasses K) (st : LinkState K) (k : K) (t : Method K) : Prop :=
  h.Searches k t ∧ h.MayAllocate k t ∧ (∃ s, h.super k = some s ∧ h.Inherits k s t) ∧
    ¬ h.Reuses st k t

/-- The method is not taken to reuse an entry, but it takes that of a package-private method from
another package, because a class between them is in its own package. -/
def Absorbed (h : LoadedClasses K) (st : LinkState K) (k : K) (t : Method K) : Prop :=
  h.Searches k t ∧ h.MayAllocate k t ∧ (∀ s, h.super k = some s → ¬ h.Inherits k s t) ∧
    vtableTransitiveOverrideVersion ≤ h.majorVersion k ∧
    ∃ (i : Nat) (m : Method K) (a : K) (e : Method K), (h.superTable st k)[i]? = some (some m) ∧
      m.Matches t ∧ a ∈ h.supers m.holder ∧ (st.table a)[i]? = some (some e) ∧
      e.access = .packagePrivate ∧
      h.isSameClassPackage a k = true

/-! ## The search at load time -/

theorem declaresOverridden_iff {superclasses : List K} :
    h.declaresOverridden k t superclasses = true ↔ ∃ a ∈ superclasses, ∃ m ∈ h.methods a,
      m.Matches t ∧ m.isStatic = false ∧ m.access ≠ .private_ ∧ h.isOverride a m k = true := by
  rw [declaresOverridden, List.any_eq_true]
  refine exists_congr fun a => and_congr_right fun _ => ?_
  constructor
  · intro hfound
    split at hfound
    · cases hfound
    · next m hm =>
        obtain ⟨hmem, hname, hsignature⟩ := findMethod_eq_some hm
        simp only [ne_eq, Bool.and_eq_true, Bool.not_eq_true', decide_eq_true_eq] at hfound
        exact ⟨m, hmem, ⟨hname, hsignature⟩, hfound.1.1, hfound.1.2, hfound.2⟩
  · rintro ⟨m, hmem, hmatch, hstatic, hprivate, hover⟩
    have hfind := h.findMethod_eq_of_mem hmem
    rw [hmatch.1, hmatch.2] at hfind
    simp [hfind, hstatic, hprivate, hover]

theorem needsNewVtableEntry_iff : h.needsNewVtableEntry k t = true ↔
    t.IsVirtual ∧ h.MayAllocate k t ∧
      ∀ s, h.super k = some s → t.access ≠ .private_ → ¬ h.Inherits k s t := by
  rw [needsNewVtableEntry]
  split
  · next hno =>
      simp only [Bool.false_eq_true, false_iff]
      rintro ⟨⟨hstatic, hname⟩, ⟨hfinal, hfinal'⟩, -⟩
      simp [hstatic, hname, hfinal, hfinal'] at hno
  next hyes =>
  have hstart : t.IsVirtual ∧ h.MayAllocate k t := by
    simp only [not_or, Bool.not_eq_true] at hyes
    exact ⟨⟨hyes.2.2.1, hyes.2.2.2⟩, hyes.1, hyes.2.1⟩
  simp only [hstart.1, hstart.2, true_and]
  cases hs : h.super k with
  | none => simp
  | some s =>
    simp only [Option.some.injEq, forall_eq', Inherits, ← declaresOverridden_iff]
    split
    · next hprivate => simp [hprivate]
    next hprivate =>
    split
    · next hdeclares => simp [hprivate, hdeclares]
    next hdeclares =>
    split
    · next hmiranda => simp [hprivate, hmiranda]
    · next hmiranda =>
        simp only [true_iff]
        rintro - (hdeclares' | hmiranda')
        · exact hdeclares hdeclares'
        · exact hmiranda hmiranda'

/-! ## The search at link time -/

theorem Linked.isNewEntry_iff (hst : h.Linked st) (hsuper : ∀ s, h.super k = some s → st s ≠ none) :
    h.IsNewEntry st k t ↔
      t.IsVirtual ∧ h.MayAllocate k t ∧ (h.Searches k t → ¬ h.Reuses st k t) := by
  unfold IsNewEntry MayAllocate
  constructor
  · rintro ⟨hvirtual, hfinal, hfinal', hnone⟩
    refine ⟨hvirtual, ⟨hfinal, hfinal'⟩, ?_⟩
    rintro hsearch ⟨i, m, hm⟩
    exact hnone i ((hst.takes_iff hsuper).2 ⟨hsearch, m, hm⟩)
  · rintro ⟨hvirtual, ⟨hfinal, hfinal'⟩, hnone⟩
    refine ⟨hvirtual, hfinal, hfinal', ?_⟩
    intro i htakes
    obtain ⟨hsearch, m, hm⟩ := (hst.takes_iff hsuper).1 htakes
    exact hnone hsearch ⟨i, m, hm⟩

theorem transitiveInterfaces_subset {a i : K} (ha : a ∈ h.ancestors k)
    (hi : i ∈ h.transitiveInterfaces a) : i ∈ h.transitiveInterfaces k := by
  induction k using h.super_induction with
  | hstep k ih =>
    rcases h.mem_ancestors.1 ha with rfl | ha
    · exact hi
    · cases hs : h.super k with
      | none =>
        rw [supers, hs] at ha
        cases ha
      | some s =>
        rw [h.supers_of_super hs] at ha
        exact h.mem_transitiveInterfaces.2 (.inl ⟨s, hs, ih s hs ha⟩)

/-- A miranda method of the superclasses is found again at load time. -/
theorem inherits_of_mem_getMirandas {a : K} {m : Method K} (ha : a ∈ h.ancestors s)
    (hm : m ∈ h.getMirandas a) (hmatch : m.Matches t) : h.Inherits k s t := by
  refine .inr ⟨?_, ?_⟩
  · refine List.any_eq_true.2 ⟨a, ha, ?_⟩
    rw [Bool.not_eq_true', List.isEmpty_eq_false_iff]
    exact List.ne_nil_of_mem hm
  · obtain ⟨i, hi, hmem⟩ := exists_interface_of_mem_getMirandas hm
    refine List.findSome?_isSome_iff.2 ⟨i, transitiveInterfaces_subset ha hi, ?_⟩
    refine List.findSome?_isSome_iff.2 ⟨i, h.mem_ancestors_self i, ?_⟩
    rw [← hmatch.1, ← hmatch.2, h.findMethod_eq_of_mem hmem]
    rfl

/-- A method that takes over an entry without need has found it through a class of its package. -/
theorem Linked.reuses_iff (hst : h.Linked st) (hs : h.super k = some s) (hlinked : st s ≠ none)
    (hnot : ¬ h.Inherits k s t) : h.Reuses st k t ↔
      vtableTransitiveOverrideVersion ≤ h.majorVersion k ∧
      ∃ (i : Nat) (m : Method K) (a : K) (e : Method K), (h.superTable st k)[i]? = some (some m) ∧
        m.Matches t ∧ a ∈ h.supers m.holder ∧ (st.table a)[i]? = some (some e) ∧
        e.access = .packagePrivate ∧
        h.isSameClassPackage a k = true := by
  have hprivate {a : K} {m : Method K} (hover : h.isOverride a m k = true) :
      m.access ≠ .private_ := by
    intro haccess
    rw [isOverride, haccess] at hover
    cases hover
  constructor
  · rintro ⟨i, m, hm, hmatch, hover⟩
    rw [superTable_of_super hs] at hm ⊢
    rcases hst.entry_origin hlinked hm with ⟨b, hb, hmem, hvirtual⟩ | ⟨b, hb, hmem⟩
    swap
    · exact absurd (inherits_of_mem_getMirandas hb hmem hmatch) hnot
    have hholder := h.holder_eq hmem
    rcases hover with hover | ⟨hversion, a, ha, e, he, hover⟩
    · rw [hholder] at hover
      exact absurd (.inl ⟨b, hb, m, hmem, hmatch, hvirtual.1, hprivate hover, hover⟩) hnot
    · have hab : a ∈ h.ancestors s := by
        rw [hholder] at ha
        exact h.mem_ancestors.2 (.inr (h.mem_supers_trans ha hb))
      have hmatch' : e.Matches t := by
        obtain ⟨m', hm', hmatch'⟩ := hst.exists_entry_of_mem_ancestors hlinked hab he
        rw [hm] at hm'
        cases hm'
        exact hmatch'.symm.trans hmatch
      rcases hst.entry_origin (hst.ancestors hlinked hab) he with ⟨c, hc, hmemE, hvirtualE⟩ |
        ⟨c, hc, hmemE⟩
      swap
      · exact absurd (inherits_of_mem_getMirandas (h.mem_ancestors_trans hc hab) hmemE hmatch') hnot
      -- a method that is accessible everywhere would have been found
      have hpackage : e.access = .packagePrivate := by
        cases haccess : e.access with
        | packagePrivate => rfl
        | private_ => exact absurd haccess (hprivate hover)
        | _ =>
          have hoverE : h.isOverride c e k = true := by rw [isOverride, haccess]
          exact absurd (.inl ⟨c, h.mem_ancestors_trans hc hab, e, hmemE, hmatch', hvirtualE.1,
            hprivate hoverE, hoverE⟩) hnot
      rw [isOverride, hpackage] at hover
      exact ⟨hversion, i, m, a, e, hm, hmatch, ha, he, hpackage, hover⟩
  · rintro ⟨hversion, i, m, a, e, hm, hmatch, ha, he, hpackage, hsame⟩
    refine ⟨i, m, hm, hmatch, .inr ⟨hversion, a, ha, e, he, ?_⟩⟩
    rw [isOverride, hpackage]
    exact hsame

/-! ## The number of entries -/

theorem countP_le_countP_iff {α : Type} (p q : α → Prop) [DecidablePred p] [DecidablePred q]
    (l : List α) : l.countP (p ·) ≤ l.countP (q ·) ↔
      l.countP (fun a => p a ∧ ¬ q a) ≤ l.countP (fun a => q a ∧ ¬ p a) := by
  have hadd : l.countP (p ·) + l.countP (fun a => q a ∧ ¬ p a) =
      l.countP (q ·) + l.countP (fun a => p a ∧ ¬ q a) := by
    induction l with
    | nil => rfl
    | cons a l ih =>
      simp only [List.countP_cons, decide_eq_true_eq]
      by_cases hp : p a <;> by_cases hq : q a <;>
        simp only [hp, hq, not_true_eq_false, not_false_eq_true, and_self, and_true, and_false,
          if_true, if_false] <;> omega
  omega

theorem Linked.orphaned_iff (hst : h.Linked st) (hsuper : ∀ s, h.super k = some s → st s ≠ none) :
    h.Orphaned st k t ↔ h.IsNewEntry st k t ∧ ¬ h.needsNewVtableEntry k t = true := by
  rw [hst.isNewEntry_iff hsuper, needsNewVtableEntry_iff]
  constructor
  · rintro ⟨hsearch, hfinal, ⟨s, hs, hinherits⟩, hnot⟩
    exact ⟨⟨hsearch.1, hfinal, fun _ => hnot⟩, fun hneeds =>
      hneeds.2.2 s hs hsearch.2.1 hinherits⟩
  · rintro ⟨⟨hvirtual, hfinal, hreuses⟩, hneeds⟩
    simp only [hvirtual, hfinal, true_and, not_forall, not_not] at hneeds
    obtain ⟨s, hs, hprivate, hinherits⟩ := hneeds
    have hsearch : h.Searches k t := ⟨hvirtual, hprivate, by rw [hs]; exact Option.some_ne_none s⟩
    exact ⟨hsearch, hfinal, ⟨s, hs, hinherits⟩, hreuses hsearch⟩

theorem Linked.absorbed_iff (hst : h.Linked st) (hsuper : ∀ s, h.super k = some s → st s ≠ none) :
    h.Absorbed st k t ↔ h.needsNewVtableEntry k t = true ∧ ¬ h.IsNewEntry st k t := by
  rw [hst.isNewEntry_iff hsuper, needsNewVtableEntry_iff]
  constructor
  · rintro ⟨hsearch, hfinal, hnot, hversion, hentry⟩
    obtain ⟨s, hs⟩ := Option.ne_none_iff_exists'.1 hsearch.2.2
    refine ⟨⟨hsearch.1, hfinal, fun s hs _ => hnot s hs⟩, fun hnew => hnew.2.2 hsearch ?_⟩
    exact (hst.reuses_iff hs (hsuper s hs) (hnot s hs)).2 ⟨hversion, hentry⟩
  · rintro ⟨⟨hvirtual, hfinal, hneeds⟩, hnew⟩
    simp only [hvirtual, hfinal, true_and, Classical.not_imp, not_not] at hnew
    obtain ⟨hsearch, hreuses⟩ := hnew
    obtain ⟨s, hs⟩ := Option.ne_none_iff_exists'.1 hsearch.2.2
    have hnot := hneeds s hs hsearch.2.1
    refine ⟨hsearch, hfinal, fun s hs => hneeds s hs hsearch.2.1, ?_⟩
    exact (hst.reuses_iff hs (hsuper s hs) hnot).1 hreuses

theorem vtableLength_eq (k : K) : h.vtableLength k =
    ((h.supers k).map h.numNewEntries).sum + h.numNewEntries k := by
  unfold vtableLength
  rw [h.ancestors_eq k, List.map_cons, List.sum_cons, Nat.add_comm]

theorem Linked.length_superTable (hst : h.Linked st)
    (hsuper : ∀ s, h.super k = some s → st s ≠ none) :
    (h.superTable st k).length = ((h.supers k).map h.numNewEntries).sum := by
  cases hs : h.super k with
  | none =>
    rw [superTable, supers, hs]
    rfl
  | some s =>
    rw [superTable_of_super hs, hst.length_table (hsuper s hs), h.supers_of_super hs]
    rfl

open Classical in
/-- The entries that `initialize_vtable` writes fit into the space that was reserved when the
class was loaded if and only if not more methods are orphaned than absorbed. -/
theorem initialized_le_vtableLength_iff [DecidableEq K] (hst : (h.linking check).Reachable st)
    (hsuper : ∀ s, h.super k = some s → st s ≠ none) {v : KlassVtable K}
    (hv : h.initializeVtable check st k = some v) :
    v.table.length ≤ h.vtableLength k ↔
      (h.methods k).countP (h.Orphaned st k ·) ≤ (h.methods k).countP (h.Absorbed st k ·) := by
  have hlinked := linked_of_reachable hst
  obtain ⟨w, hw, rfl⟩ := filled_initializeVtable hv
  have horphaned : (fun t => decide (h.Orphaned st k t)) =
      fun t => decide (h.IsNewEntry st k t ∧ ¬ h.needsNewVtableEntry k t = true) := by
    funext t
    exact decide_eq_decide.2 (hlinked.orphaned_iff hsuper)
  have habsorbed : (fun t => decide (h.Absorbed st k t)) =
      fun t => decide (h.needsNewVtableEntry k t = true ∧ ¬ h.IsNewEntry st k t) := by
    funext t
    exact decide_eq_decide.2 (hlinked.absorbed_iff hsuper)
  have hneeds : (h.methods k).countP (fun t => decide (h.needsNewVtableEntry k t = true)) =
      (h.methods k).countP (h.needsNewVtableEntry k) :=
    List.countP_congr fun t _ => by rw [decide_eq_true_eq]
  rw [horphaned, habsorbed, ← countP_le_countP_iff, hneeds, List.length_append, List.length_map,
    hw.length, hlinked.length_superTable hsuper, vtableLength_eq, numNewEntries]
  omega

/-! ## A hierarchy with decreasing access -/

/-- The root, a class `p/A` with a public method, a subclass `q/B` where it is package-private, and
a subclass `r/C` of this one where it is public again. -/
def decreasingAccess : LoadedClasses (Fin 4) where
  object := 0
  super k := match k with
    | 0 => none
    | 1 => some 0
    | 2 => some 1
    | 3 => some 2
  super_eq_none := by decide
  depth k := k
  depth_super := by decide
  loader _ := 0
  name k := match k with
    | 0 => javaLangObject
    | 1 => [0x70, 0x2F, 0x41]
    | 2 => [0x71, 0x2F, 0x42]
    | 3 => [0x72, 0x2F, 0x43]
  isFinal _ := false
  majorVersion _ := 50
  methods k := match k with
    | 0 => []
    | 1 => [exampleMethod 1 .public_]
    | 2 => [exampleMethod 2 .packagePrivate]
    | 3 => [exampleMethod 3 .public_]
  localInterfaces _ := []
  transitiveInterfaces _ := []
  holder_eq := by decide
  methods_distinct := by decide
  super_not_final := by decide
  object_access := by decide
  object_interfaces := rfl
  interface_super := by simp
  mem_transitiveInterfaces := by simp

/-- The public method of the last class gets an entry for which there is no room. -/
theorem initialized_exceeds_vtableLength : ∃ st v,
    (decreasingAccess.linking fun _ _ _ => true).Reachable st ∧
      (∀ s, decreasingAccess.super 3 = some s → st s ≠ none) ∧
      decreasingAccess.initializeVtable (fun _ _ _ => true) st 3 = some v ∧
      decreasingAccess.vtableLength 3 < v.table.length := by
  have hrun : (([0, 1, 2] : List (Fin 4)).foldlM (decreasingAccess.link fun _ _ _ => true)
      fun _ => none).any (fun st => decreasingAccess.superLinked st 3 &&
        (decreasingAccess.initializeVtable (fun _ _ _ => true) st 3).any
          fun v => decide (decreasingAccess.vtableLength 3 < v.table.length)) = true := by
    decide
  obtain ⟨st, hst, hnext⟩ := (Option.any_eq_true _ _).1 hrun
  simp only [Bool.and_eq_true] at hnext
  obtain ⟨v, hv, hlt⟩ := (Option.any_eq_true _ _).1 hnext.2
  exact ⟨st, v, reachable_of_foldlM (.of_init fun _ => rfl) hst, superLinked_iff.1 hnext.1, hv,
    of_decide_eq_true hlt⟩

open Classical in
/-- In the class before, the method reuses the entry that has been found at load time. -/
theorem initialized_le_vtableLength_iff_decreasingAccess : ∃ st v,
    (decreasingAccess.linking fun _ _ _ => true).Reachable st ∧
      decreasingAccess.initializeVtable (fun _ _ _ => true) st 2 = some v ∧
      v.table.length ≤ decreasingAccess.vtableLength 2 ∧
      (decreasingAccess.methods 2).countP (decreasingAccess.Orphaned st 2 ·) ≤
        (decreasingAccess.methods 2).countP (decreasingAccess.Absorbed st 2 ·) := by
  have hrun : (([0, 1] : List (Fin 4)).foldlM (decreasingAccess.link fun _ _ _ => true)
      fun _ => none).any (fun st => decreasingAccess.superLinked st 2 &&
        (decreasingAccess.initializeVtable (fun _ _ _ => true) st 2).any
          fun v => decide (v.table.length ≤ decreasingAccess.vtableLength 2)) = true := by
    decide
  obtain ⟨st, hst, hnext⟩ := (Option.any_eq_true _ _).1 hrun
  simp only [Bool.and_eq_true] at hnext
  obtain ⟨v, hv, hle⟩ := (Option.any_eq_true _ _).1 hnext.2
  have hreachable := reachable_of_foldlM (.of_init fun _ => rfl) hst
  exact ⟨st, v, hreachable, hv, of_decide_eq_true hle,
    (initialized_le_vtableLength_iff hreachable (superLinked_iff.1 hnext.1) hv).1
      (of_decide_eq_true hle)⟩

end LoadedClasses

end HotSpot
