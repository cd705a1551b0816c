import HotSpot.Classfile.VerificationType
import HotSpot.Oops.VtableLinking

/-! # Dispatch through the vtable

Which method a virtual call selects, and that the entry at the index of a method is the selected
one. The search for a transitive override looks at the package of the class in which it finds an
entry, not of the class that declares the method; where these differ the entry is lost.
-/

namespace HotSpot

open ClassFileParser Method

namespace LoadedClasses

variable {K : Type} {h : LoadedClasses K} {check : LoaderCheck} {st : LinkState K} {k s : K}
  {t m : Method K}

/-! ## Overriding -/

/-- The method `m` is accessible in the class `k`. -/
def Accessible (h : LoadedClasses K) (k : K) (m : Method K) : Prop :=
  m.access = .public_ ∨ m.access = .protected_ ∨
    m.access = .packagePrivate ∧ h.isSameClassPackage m.holder k = true

instance (k : K) (m : Method K) : Decidable (h.Accessible k m) :=
  inferInstanceAs (Decidable (_ ∨ _ ∨ _ ∧ _))

/-- The method `t` overrides `m` because `m` is accessible in its class. -/
structure OverridesDirectly (h : LoadedClasses K) (t m : Method K) : Prop where
  declared : t ∈ h.methods t.holder
  declared' : m ∈ h.methods m.holder
  super : m.holder ∈ h.supers t.holder
  matching : t.Matches m
  isVirtual : t.IsVirtual
  isVirtual' : m.IsVirtual
  not_private : t.access ≠ .private_
  accessible : h.Accessible t.holder m

/-- Overriding, also through a method between. -/
inductive Overrides (h : LoadedClasses K) : Method K → Method K → Prop
  | direct {t m : Method K} (hdirect : h.OverridesDirectly t m) : Overrides h t m
  | trans {t u m : Method K} (hleft : Overrides h t u) (hright : Overrides h u m) : Overrides h t m

/-- The method `t` is that of the nearest class from `k` upwards that declares `m` or a method
overriding it. -/
structure Selected (h : LoadedClasses K) (k : K) (m t : Method K) : Prop where
  declared : t ∈ h.methods t.holder
  mem_ancestors : t.holder ∈ h.ancestors k
  overrides : t = m ∨ h.Overrides t m
  nearest : ∀ u ∈ h.methods u.holder, u.holder ∈ h.ancestors k → u = m ∨ h.Overrides u m →
    u.holder ∈ h.ancestors t.holder

/-- An overriding method is never less accessible, private or static, and the method that it
overrides is not final. -/
def WellBehaved (h : LoadedClasses K) : Prop :=
  ∀ k, ∀ t ∈ h.methods k, ∀ a ∈ h.supers k, ∀ m ∈ h.methods a, m.Matches t → m.IsVirtual →
    h.Accessible k m → t.isStatic = false ∧ t.access ≠ .private_ ∧
      m.access.level ≤ t.access.level ∧ m.isFinal = false

namespace Overrides

theorem matching (ho : h.Overrides t m) : t.Matches m := by
  induction ho with
  | direct hd => exact hd.matching
  | trans _ _ ihl ihr => exact ihl.trans ihr

theorem left (ho : h.Overrides t m) :
    t ∈ h.methods t.holder ∧ t.IsVirtual ∧ t.access ≠ .private_ := by
  induction ho with
  | direct hd => exact ⟨hd.declared, hd.isVirtual, hd.not_private⟩
  | trans _ _ ihl _ => exact ihl

theorem right (ho : h.Overrides t m) :
    m ∈ h.methods m.holder ∧ m.IsVirtual ∧ m.access ≠ .private_ := by
  induction ho with
  | direct hd =>
    refine ⟨hd.declared', hd.isVirtual', fun hprivate => ?_⟩
    rcases hd.accessible with haccess | haccess | ⟨haccess, -⟩ <;>
      rw [hprivate] at haccess <;> cases haccess
  | trans _ _ _ ihr => exact ihr

theorem super (ho : h.Overrides t m) : m.holder ∈ h.supers t.holder := by
  induction ho with
  | direct hd => exact hd.super
  | trans _ _ ihl ihr => exact h.mem_supers_trans ihr (h.mem_ancestors.2 (.inr ihl))

/-- The first of the overriding steps. -/
theorem exists_direct (ho : h.Overrides t m) :
    ∃ u, h.OverridesDirectly t u ∧ (u = m ∨ h.Overrides u m) := by
  induction ho with
  | direct hd => exact ⟨_, hd, .inl rfl⟩
  | trans _ hright ihl _ =>
    obtain ⟨u, hu, rfl | hum⟩ := ihl
    · exact ⟨u, hu, .inr hright⟩
    · exact ⟨u, hu, .inr (hum.trans hright)⟩

end Overrides

theorem WellBehaved.level_le (hwell : h.WellBehaved) (hd : h.OverridesDirectly t m) :
    m.access.level ≤ t.access.level :=
  (hwell _ t hd.declared _ hd.super m hd.declared' hd.matching.symm hd.isVirtual'
    hd.accessible).2.2.1

/-- A package-private method overrides only methods of its package. -/
theorem WellBehaved.same_package (hwell : h.WellBehaved) (ho : h.Overrides t m)
    (ht : t.access = .packagePrivate) :
    m.access = .packagePrivate ∧ h.isSameClassPackage m.holder t.holder = true := by
  induction ho with
  | direct hd =>
    have hlevel := hwell.level_le hd
    rw [ht] at hlevel
    rcases hd.accessible with haccess | haccess | haccess
    · rw [haccess] at hlevel
      exact absurd hlevel (by decide)
    · rw [haccess] at hlevel
      exact absurd hlevel (by decide)
    · exact haccess
  | trans _ _ ihl ihr =>
    obtain ⟨hu, hpackage⟩ := ihl ht
    obtain ⟨hm, hpackage'⟩ := ihr hu
    exact ⟨hm, h.isSameClassPackage_trans hpackage' hpackage⟩

theorem isOverride_iff_accessible : h.isOverride m.holder m k = true ↔ h.Accessible k m := by
  unfold isOverride Accessible
  cases m.access <;> simp

theorem accessible_of_level_le {u v : Method K} (hv : v.access = .public_ ∨ v.access = .protected_)
    (hlevel : v.access.level ≤ u.access.level) : h.Accessible k u := by
  unfold Accessible
  rcases hv with hv | hv <;> cases haccess : u.access <;>
    simp [hv, haccess, Access.level] at hlevel ⊢

/-- A method that overrides `m` can override directly what has been selected for `m` so far. -/
theorem WellBehaved.accessible_selected (hwell : h.WellBehaved) (hs : h.super t.holder = some s)
    (ho : h.Overrides t m) {u : Method K} (hu : h.Selected s m u) :
    h.Accessible t.holder u := by
  obtain ⟨v, hdirect, hvm⟩ := ho.exists_direct
  have hv : v.holder ∈ h.ancestors s := by
    rw [← h.supers_of_super hs]
    exact hdirect.super
  have hbelow := hu.nearest v hdirect.declared' hv hvm
  have hvmatch : v.Matches m := by
    rcases hvm with rfl | hvm
    · exact ⟨rfl, rfl⟩
    · exact hvm.matching
  have humatch : u.Matches m := by
    rcases hu.overrides with rfl | hum
    · exact ⟨rfl, rfl⟩
    · exact hum.matching
  rcases h.mem_ancestors.1 hbelow with hsame | habove
  · have huv : v = u := h.methods_unique (hsame ▸ hdirect.declared') hu.declared
      (hvmatch.trans humatch.symm)
    exact huv ▸ hdirect.accessible
  -- the selected method is strictly below `v`, so that it overrides `m`
  have hum : h.Overrides u m := by
    rcases hu.overrides with rfl | hum
    · exfalso
      have hlt := h.depth_lt_of_mem_supers habove
      rcases hvm with rfl | hvm
      · exact Nat.lt_irrefl _ hlt
      · exact Nat.lt_irrefl _ (Nat.lt_trans hlt (h.depth_lt_of_mem_supers hvm.super))
    · exact hum
  have hdirect' (hv : v.access = .public_ ∨ v.access = .protected_) : h.OverridesDirectly u v :=
    ⟨hu.declared, hdirect.declared', habove, humatch.trans hvmatch.symm, hum.left.2.1,
      hdirect.isVirtual', hum.left.2.2, by unfold Accessible; tauto⟩
  have hpublic (hv : v.access = .public_ ∨ v.access = .protected_) : h.Accessible t.holder u :=
    accessible_of_level_le hv (hwell.level_le (hdirect' hv))
  rcases hdirect.accessible with haccess | haccess | ⟨haccess, hpackage⟩
  · exact hpublic (.inl haccess)
  · exact hpublic (.inr haccess)
  · cases hu' : u.access with
    | public_ => exact .inl hu'
    | protected_ => exact .inr (.inl hu')
    | private_ => exact absurd hu' hum.left.2.2
    | packagePrivate =>
      refine .inr (.inr ⟨hu', ?_⟩)
      obtain ⟨-, hmu⟩ := hwell.same_package hum hu'
      have hmv : h.isSameClassPackage m.holder v.holder = true := by
        rcases hvm with rfl | hvm
        · exact h.isSameClassPackage_iff.2 ⟨rfl, rfl⟩
        · exact (hwell.same_package hvm haccess).2
      exact h.isSameClassPackage_trans (h.isSameClassPackage_symm hmu)
        (h.isSameClassPackage_trans hmv hpackage)

/-! ## The entries -/

/-- `vtable_index` of a method of a linked class. -/
def vtableIndex (st : LinkState K) (m : Method K) : Option Nat :=
  (st m.holder).bind fun v => v.vtableIndex m

/-- The entry at the index of a method that `k` declares or inherits is the selected method. -/
def Dispatches (h : LoadedClasses K) (st : LinkState K) (k : K) : Prop :=
  ∀ m ∈ h.methods m.holder, m.holder ∈ h.ancestors k → ∀ i, vtableIndex st m = some i →
    ∃ t, (st.table k)[i]? = some (some t) ∧ h.Selected k m t

/-- Methods that share an entry override each other. -/
def KeepsApart (h : LoadedClasses K) (st : LinkState K) (k : K) : Prop :=
  ∀ m ∈ h.methods m.holder, m.holder ∈ h.ancestors k → ∀ m' ∈ h.methods m'.holder,
    m'.holder ∈ h.ancestors k → ∀ i, vtableIndex st m = some i → vtableIndex st m' = some i →
      m = m' ∨ h.Overrides m m' ∨ h.Overrides m' m

/-- A method of the class `k`, of a new class file, finds an entry that it cannot override, and a
superclass of the class that declares it has the entry and is in the package of `k`. -/
def Confused (h : LoadedClasses K) (st : LinkState K) (k : K) : Prop :=
  vtableTransitiveOverrideVersion ≤ h.majorVersion k ∧
    ∃ t ∈ h.methods k, h.Searches k t ∧ ∃ (i : Nat) (m : Method K) (a : K) (e : Method K),
      (h.superTable st k)[i]? = some (some m) ∧ m.Matches t ∧ ¬ h.Accessible k m ∧
      a ∈ h.supers m.holder ∧ (st.table a)[i]? = some (some e) ∧ h.isSameClassPackage a k = true

section WithoutInterfaces

variable (hinterfaces : ∀ k, h.localInterfaces k = [])

include hinterfaces

theorem getMirandas_eq_nil (k : K) : h.getMirandas k = [] := by
  rw [getMirandas, hinterfaces]
  rfl

theorem Linked.declared_of_entry (hst : h.Linked st) (hk : st k ≠ none) {i : Nat}
    (hm : (st.table k)[i]? = some (some m)) :
    m ∈ h.methods m.holder ∧ m.holder ∈ h.ancestors k ∧ m.IsVirtual := by
  rcases hst.entry_origin hk hm with ⟨a, ha, hmem, hvirtual⟩ | ⟨a, ha, hmem⟩
  · rw [h.holder_eq hmem]
    exact ⟨hmem, ha, hvirtual⟩
  · rw [getMirandas_eq_nil hinterfaces] at hmem
    cases hmem

/-- Every entry has been allocated for a method whose index it is. -/
theorem Linked.exists_vtableIndex (hst : h.Linked st) (hk : st k ≠ none) {i : Nat}
    (hm : (st.table k)[i]? = some (some m)) : ∃ m₀ ∈ h.methods m₀.holder,
      m₀.holder ∈ h.ancestors k ∧ vtableIndex st m₀ = some i := by
  induction k using h.super_induction generalizing m with
  | hstep k ih =>
    obtain ⟨w, hw, -, hindex, htable⟩ := hst.table_eq hk
    rw [getMirandas_eq_nil hinterfaces, List.map_nil, List.append_nil] at htable
    by_cases hsuper : i < (h.superTable st k).length
    · -- the entry is inherited, so that it has been allocated above
      cases hs : h.super k with
      | none =>
        rw [superTable, hs] at hsuper
        exact absurd hsuper (Nat.not_lt_zero i)
      | some s =>
        have hlinked : st s ≠ none := hst.ancestors hk (h.mem_ancestors.2 (.inr (by
          rw [h.supers_of_super hs]
          exact h.mem_ancestors_self s)))
        have hentry : ∃ m', (st.table s)[i]? = some (some m') := by
          rw [← superTable_of_super hs]
          by_cases htaken : ∃ t ∈ h.methods k, h.Takes st k t i
          · obtain ⟨t, ht, -, m', superKlass, hm', -⟩ := htaken
            exact ⟨m', hm'⟩
          · have hlen := hw.le_length
            rw [htable, List.getElem?_append_left (by omega),
              hw.kept i hsuper fun t ht htakes => htaken ⟨t, ht, htakes⟩] at hm
            exact ⟨m, hm⟩
        obtain ⟨m', hm'⟩ := hentry
        obtain ⟨m₀, hmem, hholder, hindex⟩ := ih s hs hlinked hm'
        refine ⟨m₀, hmem, h.mem_ancestors.2 (.inr ?_), hindex⟩
        rwa [h.supers_of_super hs]
    · have hlt : i < w.table.length := by
        by_contra hge
        rw [htable, List.getElem?_append_right (by omega)] at hm
        exact absurd (List.eq_of_mem_replicate (List.mem_of_getElem? hm)) (Option.some_ne_none m)
      obtain ⟨t, ht, -, -, hti⟩ := hw.new i (by omega) hlt
      have hholder := h.holder_eq ht
      refine ⟨t, hholder.symm ▸ ht, hholder.symm ▸ h.mem_ancestors_self k, ?_⟩
      obtain ⟨v, hv⟩ := Option.ne_none_iff_exists'.1 hk
      rw [vtableIndex, hholder, hv, Option.bind_some, hindex v hv, hti]

/-- An entry that the superclasses of its holder have too overrides what it was allocated for. -/
theorem Linked.overrides_of_supers (hst : h.Linked st) (hs : st s ≠ none)
    (hdispatch : ∀ a ∈ h.ancestors s, h.Dispatches st a) {i : Nat} {e : Method K} {a : K}
    (hm : (st.table s)[i]? = some (some m)) (ha : a ∈ h.supers m.holder)
    (he : (st.table a)[i]? = some (some e)) : ∃ m₀, m₀ ∈ h.methods m₀.holder ∧
      m₀.holder ∈ h.ancestors a ∧ vtableIndex st m₀ = some i ∧ h.Overrides m m₀ ∧
      h.Selected s m₀ m ∧ h.Selected a m₀ e := by
  have hholder := (hst.declared_of_entry hinterfaces hs hm).2.1
  have hab : a ∈ h.ancestors s := h.mem_ancestors.2 (.inr (h.mem_supers_trans ha hholder))
  obtain ⟨m₀, hmem, hm₀, hindex⟩ :=
    hst.exists_vtableIndex hinterfaces (hst.ancestors hs hab) he
  obtain ⟨e', he', hselected'⟩ := hdispatch a hab m₀ hmem hm₀ i hindex
  rw [he] at he'
  cases he'
  obtain ⟨m', hm', hselected⟩ := hdispatch s (h.mem_ancestors_self s) m₀ hmem
    (h.mem_ancestors_trans hm₀ hab) i hindex
  rw [hm] at hm'
  cases hm'
  refine ⟨m₀, hmem, hm₀, hindex, ?_, hselected, hselected'⟩
  rcases hselected.overrides with rfl | hover
  · exfalso
    have hlt := h.depth_lt_of_mem_supers ha
    rcases h.mem_ancestors.1 hm₀ with heq | hmem
    · rw [heq] at hlt
      exact Nat.lt_irrefl _ hlt
    · exact Nat.lt_irrefl _ (Nat.lt_trans hlt (h.depth_lt_of_mem_supers hmem))
  · exact hover

/-- Without confusion a method takes over exactly the entries that it can override directly. -/
theorem Linked.accessible_of_takes (hst : h.Linked st) (hwell : h.WellBehaved)
    (hs : h.super k = some s) (hlinked : st s ≠ none)
    (hdispatch : ∀ a ∈ h.ancestors s, h.Dispatches st a) (hconfused : ¬ h.Confused st k)
    (ht : t ∈ h.methods k) {i : Nat} (htakes : h.Takes st k t i) :
    ∃ m, (st.table s)[i]? = some (some m) ∧ m.Matches t ∧ h.Accessible k m := by
  have hsuper : ∀ s, h.super k = some s → st s ≠ none := by
    intro s' hs'
    rw [hs] at hs'
    cases hs'
    exact hlinked
  obtain ⟨hsearch, m, hm, hmatch, hover⟩ := (hst.takes_iff hsuper).1 htakes
  have hm' := hm
  rw [superTable_of_super hs] at hm'
  refine ⟨m, hm', hmatch, ?_⟩
  rw [isOverride_iff_accessible] at hover
  rcases hover with hover | ⟨hversion, a, ha, e, he, hover⟩
  · exact hover
  by_contra hnot
  obtain ⟨m₀, -, hm₀, -, hmm₀, hselected, hselected'⟩ :=
    hst.overrides_of_supers hinterfaces hlinked hdispatch hm' ha he
  have hbelow : e.holder ∈ h.supers m.holder :=
    (h.mem_ancestors.1 hselected'.mem_ancestors).elim (fun heq => heq ▸ ha)
      fun hmem => h.mem_supers_trans hmem (h.mem_ancestors.2 (.inr ha))
  obtain ⟨hematch, hvirtual⟩ : m.Matches e ∧ e.IsVirtual := by
    rcases hselected'.overrides with rfl | hem₀
    · exact ⟨hmm₀.matching, hmm₀.right.2.1⟩
    · exact ⟨hmm₀.matching.trans hem₀.matching.symm, hem₀.left.2.1⟩
  -- a method that is accessible everywhere is overridden by one that is, too
  have hpublic (hpublic : e.access = .public_ ∨ e.access = .protected_) : h.Accessible k m :=
    accessible_of_level_le hpublic (hwell.level_le ⟨hselected.declared, hselected'.declared, hbelow,
      hematch, hmm₀.left.2.1, hvirtual, hmm₀.left.2.2, by unfold Accessible; tauto⟩)
  cases haccess : e.access with
  | public_ => exact hnot (hpublic (.inl haccess))
  | protected_ => exact hnot (hpublic (.inr haccess))
  | private_ =>
    rw [isOverride, haccess] at hover
    cases hover
  | packagePrivate =>
    rw [isOverride, haccess] at hover
    exact hconfused ⟨hversion, t, ht, hsearch, i, m, a, e, hm, hmatch, hnot, ha, he, hover⟩

omit hinterfaces in
theorem Linked.takes_of_overrides (hst : h.Linked st) (hwell : h.WellBehaved)
    (hs : h.super k = some s) (hlinked : st s ≠ none) (ht : t ∈ h.methods k) {m₀ : Method K}
    (hover : h.Overrides t m₀) {i : Nat} (hm : (st.table s)[i]? = some (some m))
    (hselected : h.Selected s m₀ m) : h.Accessible k m ∧ h.Takes st k t i := by
  have hsuper : ∀ s, h.super k = some s → st s ≠ none := by
    intro s' hs'
    rw [hs] at hs'
    cases hs'
    exact hlinked
  have hholder := h.holder_eq ht
  have haccessible := hwell.accessible_selected (by rw [hholder]; exact hs) hover hselected
  rw [hholder] at haccessible
  have hmatch : m.Matches t := by
    rcases hselected.overrides with rfl | hmm₀
    · exact hover.matching.symm
    · exact hmm₀.matching.trans hover.matching.symm
  refine ⟨haccessible,
    (hst.takes_iff hsuper).2 ⟨⟨hover.left.2.1, hover.left.2.2, ?_⟩, m, ?_, hmatch,
    .inl (isOverride_iff_accessible.2 haccessible)⟩⟩
  · rw [hs]
    exact Option.some_ne_none s
  · rwa [superTable_of_super hs]

/-- One class: what its superclasses dispatch to, it dispatches to or overrides. -/
theorem Linked.dispatches_of_supers (hst : h.Linked st) (hwell : h.WellBehaved) (hk : st k ≠ none)
    (hdispatch : ∀ a ∈ h.supers k, h.Dispatches st a) (hconfused : ¬ h.Confused st k) :
    h.Dispatches st k := by
  intro m hm hholder i hindex
  obtain ⟨w, hw, -, hwindex, htable⟩ := hst.table_eq hk
  rw [List.append_assoc] at htable
  have hentry : ∀ (j : Nat) (o : Option (Method K)), w.table[j]? = some o →
      (st.table k)[j]? = some o := by
    intro j o hj
    rw [htable, List.getElem?_append_left (List.getElem?_eq_some_iff.1 hj).1, hj]
  rcases h.mem_ancestors.1 hholder with heq | hmem
  · -- the class declares the method itself
    rw [heq] at hm
    obtain ⟨v, hv⟩ := Option.ne_none_iff_exists'.1 hk
    rw [vtableIndex, heq, hv, Option.bind_some, hwindex v hv] at hindex
    refine ⟨m, hentry i _ (hw.index_some m hm i hindex), heq.symm ▸ hm, hholder, .inl rfl, ?_⟩
    intro u _ hu _
    rwa [heq]
  · cases hs : h.super k with
    | none =>
      rw [supers, hs] at hmem
      cases hmem
    | some s =>
      have hsupers := h.supers_of_super hs
      rw [hsupers] at hmem hdispatch
      have hlinked : st s ≠ none := hst.ancestors hk (h.mem_ancestors.2 (.inr (by
        rw [hsupers]
        exact h.mem_ancestors_self s)))
      obtain ⟨u, hu, hselected⟩ := hdispatch s (h.mem_ancestors_self s) m hm hmem i hindex
      have hlt : i < (h.superTable st k).length := by
        rw [superTable_of_super hs]
        exact (List.getElem?_eq_some_iff.1 hu).1
      by_cases htaken : ∃ t ∈ h.methods k, h.Takes st k t i
      · obtain ⟨t, ht, htakes⟩ := htaken
        have htholder := h.holder_eq ht
        refine ⟨t, hentry i _ (hw.taken t ht i htakes), htholder.symm ▸ ht,
          htholder.symm ▸ h.mem_ancestors_self k, .inr ?_, fun _ _ hv _ => htholder.symm ▸ hv⟩
        obtain ⟨u', hu', hmatch, haccessible⟩ :=
          hst.accessible_of_takes hinterfaces hwell hs hlinked
          hdispatch hconfused ht htakes
        rw [hu] at hu'
        cases hu'
        obtain ⟨hdeclared, huholder, hvirtual⟩ := hst.declared_of_entry hinterfaces hlinked hu
        have hdirect : h.OverridesDirectly t u :=
          ⟨htholder.symm ▸ ht, hdeclared, by rw [htholder, hsupers]; exact huholder, hmatch.symm,
            htakes.1.1, hvirtual, htakes.1.2.1, htholder.symm ▸ haccessible⟩
        rcases hselected.overrides with rfl | hum
        · exact .direct hdirect
        · exact .trans (.direct hdirect) hum
      · have hkept := hw.kept i hlt fun t ht htakes => htaken ⟨t, ht, htakes⟩
        rw [superTable_of_super hs, hu] at hkept
        refine ⟨u, hentry i _ hkept, hselected.declared, ?_, hselected.overrides, ?_⟩
        · rw [h.mem_ancestors, hsupers]
          exact .inr hselected.mem_ancestors
        · intro v hv hvk hvm
          rcases h.mem_ancestors.1 hvk with heq | hvs
          · -- a method of the class itself would have taken the entry
            exfalso
            rw [heq] at hv
            rcases hvm with rfl | hvm
            · have hlt := h.depth_lt_of_mem_supers (hsupers.symm ▸ hmem)
              rw [heq] at hlt
              exact Nat.lt_irrefl _ hlt
            · exact htaken ⟨v, hv, (hst.takes_of_overrides hwell hs hlinked hv hvm hu
                hselected).2⟩
          · rw [hsupers] at hvs
            exact hselected.nearest v hv hvs hvm

theorem Linked.dispatches_of_not_confused (hst : h.Linked st) (hwell : h.WellBehaved)
    (hconfused : ∀ k, st k ≠ none → ¬ h.Confused st k) (hk : st k ≠ none) :
    ∀ a ∈ h.ancestors k, h.Dispatches st a := by
  induction k using h.super_induction with
  | hstep k ih =>
    have habove : ∀ a ∈ h.supers k, h.Dispatches st a := by
      intro a ha
      cases hs : h.super k with
      | none =>
        rw [supers, hs] at ha
        cases ha
      | some s =>
        rw [h.supers_of_super hs] at ha
        exact ih s hs (hst.ancestors hk (h.mem_ancestors.2 (.inr (by
          rw [h.supers_of_super hs]
          exact h.mem_ancestors_self s)))) a ha
    intro a ha
    rcases h.mem_ancestors.1 ha with rfl | ha
    · exact hst.dispatches_of_supers hinterfaces hwell hk habove (hconfused a hk)
    · exact habove a ha

/-- A confused method takes an entry that is not its own. -/
theorem Linked.not_confused_of_dispatches (hst : h.Linked st) (hwell : h.WellBehaved)
    (hdispatch : ∀ a, st a ≠ none → h.Dispatches st a) (hk : st k ≠ none) : ¬ h.Confused st k := by
  rintro ⟨hversion, t, ht, hsearch, i, m, a, e, hm, hmatch, hnot, ha, he, hpackage⟩
  obtain ⟨s, hs⟩ := Option.ne_none_iff_exists'.1 hsearch.2.2
  have hsupers := h.supers_of_super hs
  have hmemS : s ∈ h.ancestors k := by
    rw [h.mem_ancestors, hsupers]
    exact .inr (h.mem_ancestors_self s)
  have hlinked : st s ≠ none := hst.ancestors hk hmemS
  have hsuper : ∀ s, h.super k = some s → st s ≠ none := by
    intro s' hs'
    rw [hs] at hs'
    cases hs'
    exact hlinked
  have hm' := hm
  rw [superTable_of_super hs] at hm'
  obtain ⟨m₀, hmem, hm₀, hindex, hmm₀, hselected, hselected'⟩ := hst.overrides_of_supers hinterfaces
    hlinked (fun b hb => hdispatch b (hst.ancestors hlinked hb)) hm' ha he
  have hover : h.isOverride a e k = true := by
    have hprivate : e.access ≠ .private_ := by
      rcases hselected'.overrides with rfl | hem₀
      · exact hmm₀.right.2.2
      · exact hem₀.left.2.2
    unfold isOverride
    split
    · next haccess => exact absurd haccess hprivate
    · rfl
    · rfl
    · exact hpackage
  have htakes : h.Takes st k t i :=
    (hst.takes_iff hsuper).2 ⟨hsearch, m, hm, hmatch, .inr ⟨hversion, a, ha, e, he, hover⟩⟩
  obtain ⟨w, hw, -, -, htable⟩ := hst.table_eq hk
  have htaken := hw.taken t ht i htakes
  have hentry : (st.table k)[i]? = some (some t) := by
    rw [htable, List.append_assoc, List.getElem?_append_left (List.getElem?_eq_some_iff.1 htaken).1,
      htaken]
  have hm₀s : m₀.holder ∈ h.ancestors s := h.mem_ancestors_trans hm₀
    (h.mem_ancestors.2 (.inr (h.mem_supers_trans ha
      (hst.declared_of_entry hinterfaces hlinked hm').2.1)))
  obtain ⟨t', ht', hselectedT⟩ := hdispatch k hk m₀ hmem (h.mem_ancestors_trans hm₀s hmemS) i hindex
  rw [hentry] at ht'
  cases ht'
  rcases hselectedT.overrides with rfl | htm₀
  · have hlt := h.depth_lt_of_mem_supers (hsupers.symm ▸ hm₀s)
    rw [h.holder_eq ht] at hlt
    exact Nat.lt_irrefl _ hlt
  · exact hnot (hst.takes_of_overrides hwell hs hlinked ht htm₀ hm' hselected).1

end WithoutInterfaces

theorem keepsApart_of_dispatches (hdispatch : ∀ a ∈ h.ancestors k, h.Dispatches st a) :
    h.KeepsApart st k := by
  have hbelow : ∀ m ∈ h.methods m.holder, ∀ m' ∈ h.methods m'.holder, m'.holder ∈ h.ancestors k →
      m.holder ∈ h.ancestors m'.holder → ∀ i, vtableIndex st m = some i →
      vtableIndex st m' = some i → m' = m ∨ h.Overrides m' m := by
    intro m hm m' hm' hk' hholder i hi hi'
    have hclass := hdispatch m'.holder hk'
    obtain ⟨t, ht, hselected⟩ := hclass m hm hholder i hi
    obtain ⟨t', ht', hselected'⟩ := hclass m' hm' (h.mem_ancestors_self _) i hi'
    rw [ht] at ht'
    cases ht'
    obtain rfl : t = m' := by
      rcases hselected'.overrides with heq | hover
      · exact heq
      · exfalso
        have hlt := h.depth_lt_of_mem_supers hover.super
        rcases h.mem_ancestors.1 hselected'.mem_ancestors with heq | hmem
        · rw [heq] at hlt
          exact Nat.lt_irrefl _ hlt
        · exact Nat.lt_irrefl _ (Nat.lt_trans hlt (h.depth_lt_of_mem_supers hmem))
    exact hselected.overrides
  intro m hm hk m' hm' hk' i hi hi'
  rcases h.mem_ancestors_total hk hk' with hholder | hholder
  · rcases hbelow m hm m' hm' hk' hholder i hi hi' with heq | hover
    · exact .inl heq.symm
    · exact .inr (.inr hover)
  · rcases hbelow m' hm' m hm hk hholder i hi' hi with heq | hover
    · exact .inl heq
    · exact .inr (.inl hover)

/-- In a hierarchy without interfaces, in which overriding never takes away access, calls through
the vtable select the nearest overriding method if and only if no linked class is confused. -/
theorem dispatches_iff_not_confused [DecidableEq K] (hinterfaces : ∀ k, h.localInterfaces k = [])
    (hwell : h.WellBehaved) (hst : (h.linking check).Reachable st) :
    (∀ k, st k ≠ none → h.Dispatches st k ∧ h.KeepsApart st k) ↔
      ∀ k, st k ≠ none → ¬ h.Confused st k := by
  have hlinked := linked_of_reachable hst
  constructor
  · intro hall k hk
    exact hlinked.not_confused_of_dispatches hinterfaces hwell (fun a ha => (hall a ha).1) hk
  · intro hconfused k hk
    have habove := hlinked.dispatches_of_not_confused hinterfaces hwell hconfused hk
    exact ⟨habove k (h.mem_ancestors_self k), keepsApart_of_dispatches habove⟩

/-! ## A hierarchy that goes back and forth between two packages -/

/-- The root, `p/A` with a package-private method, `q/S` without one, `p/H` with a package-private
method that overrides that of `p/A`, and `q/T` with a method of the same name. -/
def splitPackages : LoadedClasses (Fin 5) where
  object := 0
  super k := match k with
    | 0 => none
    | 1 => some 0
    | 2 => some 1
    | 3 => some 2
    | 4 => some 3
  super_eq_none := by decide
  depth k := k
  depth_super := by decide
  loader _ := 0
  name k := match k with
    | 0 => javaLangObject
    | 1 => [0x70, 0x2F, 0x41]
    | 2 => [0x71, 0x2F, 0x53]
    | 3 => [0x70, 0x2F, 0x48]
    | 4 => [0x71, 0x2F, 0x54]
  isFinal _ := false
  majorVersion _ := 51
  methods k := match k with
    | 0 => []
    | 1 => [exampleMethod 1 .packagePrivate]
    | 2 => []
    | 3 => [exampleMethod 3 .packagePrivate]
    | 4 => [exampleMethod 4 .public_]
  localInterfaces _ := []
  transitiveInterfaces _ := []
  holder_eq := by decide
  methods_distinct := by decide
  super_not_final := by decide
  object_access := by decide
  object_interfaces := rfl
  interface_super := by simp
  mem_transitiveInterfaces := by simp

theorem splitPackages_wellBehaved : splitPackages.WellBehaved := by
  unfold WellBehaved
  decide

/-- The method of `q/T` takes the entry of `p/A.m`, which it does not override. -/
theorem splitPackages_not_dispatches : splitPackages.WellBehaved ∧
    (∀ k, splitPackages.localInterfaces k = []) ∧
    ∃ st, (splitPackages.linking fun _ _ _ => true).Reachable st ∧ st 4 ≠ none ∧
      ¬ splitPackages.Dispatches st 4 := by
  refine ⟨splitPackages_wellBehaved, fun _ => rfl, ?_⟩
  have hrun : (([0, 1, 2, 3, 4] : List (Fin 5)).foldlM (splitPackages.link fun _ _ _ => true)
      fun _ => none).any (fun st => (st 4).isSome &&
        decide (vtableIndex st (exampleMethod 1 .packagePrivate) = some 0 ∧
          (st.table 4)[0]? = some (some (exampleMethod 4 .public_)))) = true := by
    decide
  obtain ⟨st, hst, hnext⟩ := (Option.any_eq_true _ _).1 hrun
  simp only [Bool.and_eq_true, decide_eq_true_eq] at hnext
  obtain ⟨hlinked, hindex, hentry⟩ := hnext
  refine ⟨st, reachable_of_foldlM (.of_init fun _ => rfl) hst,
    Option.isSome_iff_ne_none.1 hlinked, ?_⟩
  intro hdispatch
  obtain ⟨t, ht, hselected⟩ := hdispatch (exampleMethod 1 .packagePrivate) (by decide) (by decide) 0
    hindex
  rw [hentry] at ht
  cases ht
  rcases hselected.overrides with heq | hover
  · exact absurd heq (by decide)
  · obtain ⟨u, hu, -⟩ := hover.exists_direct
    have hnone : ∀ a ∈ splitPackages.supers 4, ∀ u ∈ splitPackages.methods a,
        ¬ splitPackages.Accessible 4 u := by decide
    exact hnone u.holder hu.super u hu.declared' hu.accessible

/-- Without `q/T` the entry belongs to `p/H.m`. -/
theorem dispatches_iff_not_confused_splitPackages :
    ∃ st, (splitPackages.linking fun _ _ _ => true).Reachable st ∧ st 3 ≠ none ∧
      ((∀ k, st k ≠ none → splitPackages.Dispatches st k ∧ splitPackages.KeepsApart st k) ↔
        ∀ k, st k ≠ none → ¬ splitPackages.Confused st k) := by
  have hrun : (([0, 1, 2, 3] : List (Fin 5)).foldlM (splitPackages.link fun _ _ _ => true)
      fun _ => none).any (fun st => (st 3).isSome) = true := by
    decide
  obtain ⟨st, hst, hlinked⟩ := (Option.any_eq_true _ _).1 hrun
  have hreachable := reachable_of_foldlM (.of_init fun _ => rfl) hst
  exact ⟨st, hreachable, Option.isSome_iff_ne_none.1 hlinked,
    dispatches_iff_not_confused (fun _ => rfl) splitPackages_wellBehaved hreachable⟩

end LoadedClasses

end HotSpot
