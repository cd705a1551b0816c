import HotSpot.Oops.SuperChain

/-! # The subtype check is exact

What the displays, the secondary supers and the caches of the klasses say, in every table
that allocations and checks can lead to, and that a check is right because of it.
-/

namespace HotSpot

open KlassOop

theorem KlassOop.bottomKlass_bottomKlass (r : KlassOop) :
    r.bottomKlass.bottomKlass = r.bottomKlass := by
  induction r with
  | instanceKlass k => rfl
  | typeArrayKlass p => rfl
  | objArrayKlass x ih => exact ih

/-! ## Ranks -/

theorem Hierarchy.Declared.depth_le {H : Hierarchy} (h : H.Declared) {k : Nat} (hk : k < H.count) :
    H.depth (k + 1) k ≤ k := by
  induction k using Nat.strong_induction_on with
  | _ k ih =>
    rw [Hierarchy.depth]
    split
    next => exact Nat.zero_le k
    next s hs =>
      have hlt := (h.super_lt hk hs).1
      have hle := ih s hlt (by omega)
      rw [h.depth_eq (by omega) hlt]
      omega

namespace SystemDictionary

variable {D : SystemDictionary}

/-- The display of a klass has the classes above it, and the offset is its place in displays. -/
structure ExactDisplay (D : SystemDictionary) (r : KlassOop) (S : KlassSupers) : Prop where
  super : S.super = D.superOf r
  primary : D.Primary r → S.superCheckOffset = .primarySuper (D.rank r)
  secondary : ¬D.Primary r → S.superCheckOffset = .secondarySuperCache
  display : ∀ i < primarySuperLimit, ∀ t,
    S.primarySupers i = some t ↔ D.Chain r t ∧ D.Primary t ∧ D.rank t = i

/-- What is known of the supers of a klass, once they are initialized. -/
structure ExactSupers (D : SystemDictionary) (r : KlassOop) (S : KlassSupers) : Prop
    extends ExactDisplay D r S where
  secondarySupers : ∃ l, S.secondarySupers = some l ∧
    ∀ t, t ∈ l ↔ D.IsSubtype r t ∧ t ≠ r ∧ ¬D.Primary t
  cache : ∀ t, S.secondarySuperCache = some t → D.IsSubtype r t

namespace ExactSupers

variable {r : KlassOop} {S : KlassSupers} (h : D.ExactSupers r S)

include h

theorem canBePrimarySuper_iff : S.canBePrimarySuper = true ↔ D.Primary r := by
  rw [KlassSupers.canBePrimarySuper, decide_eq_true_iff]
  by_cases hr : D.Primary r
  · simp [h.primary hr, hr]
  · simp [h.secondary hr, hr]

theorem superDepth_primary (hr : D.Primary r) : S.superDepth = D.rank r := by
  rw [KlassSupers.superDepth, h.primary hr]

theorem superDepth_secondary (hr : ¬D.Primary r) : S.superDepth = primarySuperLimit := by
  rw [KlassSupers.superDepth, h.secondary hr]

end ExactSupers

section Bootstrapped

variable (h : D.Bootstrapped)

include h

theorem Bootstrapped.rank_le {r : KlassOop} (hr : D.Names r) :
    D.rank r ≤ D.classes.count + r.dimension := by
  induction r with
  | instanceKlass k =>
    have hk := names_instanceKlass hr
    have := h.declared.depth_le hk
    rw [rank]
    omega
  | typeArrayKlass p =>
    have := h.declared.pos
    rw [rank]
    omega
  | objArrayKlass x ih =>
    have hle : D.rank x ≤ D.classes.count + x.dimension := ih hr
    rw [rank, dimension]
    omega

omit h in
theorem rank_bottomKlass_le (r : KlassOop) : D.rank r.bottomKlass ≤ D.rank r := by
  induction r with
  | instanceKlass k => exact Nat.le_refl _
  | typeArrayKlass p => exact Nat.le_refl _
  | objArrayKlass x ih => exact ih.trans (Nat.le_succ _)

theorem Bootstrapped.chain_not_overInterface {r t : KlassOop} (hr : D.Names r)
    (hover : ¬D.OverInterface r) (hchain : D.Chain r t) : ¬D.OverInterface t := by
  rcases Relation.ReflTransGen.cases_tail hchain with rfl | ⟨b, hb, hs⟩
  · exact hover
  · exact (h.superOf_some (h.chain_rank hr hb).1 hs).2.2

/-- Above a class with a place in the displays, all classes have one. -/
theorem Bootstrapped.primary_chain {r t : KlassOop} (hr : D.Names r) (hprimary : D.Primary r)
    (hchain : D.Chain r t) : D.Primary t := by
  refine ⟨?_, h.chain_not_overInterface hr hprimary.2 hchain⟩
  have := hprimary.1
  rcases (h.chain_rank hr hchain).2 with rfl | hlt
  · exact this
  · omega

/-- The classes above a klass, other than itself. -/
theorem Bootstrapped.properSuper_iff {r s t : KlassOop} (hr : D.Names r)
    (hs : D.superOf r = some s) (ht : ¬D.OverInterface t) :
    D.IsSubtype r t ∧ t ≠ r ↔ D.Chain s t := by
  rw [h.isSubtype_iff_chain hr ht]
  obtain ⟨hnames, hrank, -⟩ := h.superOf_some hr hs
  constructor
  · rintro ⟨hchain, hne⟩
    rcases Relation.ReflTransGen.cases_head hchain with rfl | ⟨s', hs', hchain⟩
    · exact absurd rfl hne
    · obtain rfl := Option.some.inj (hs.symm.trans hs')
      exact hchain
  · intro hchain
    refine ⟨hchain.head hs, ?_⟩
    rintro rfl
    rcases (h.chain_rank hnames hchain).2 with heq | hlt
    · rw [← heq] at hrank
      omega
    · omega

end Bootstrapped

end SystemDictionary

namespace KlassTable

variable {D : SystemDictionary} {T : KlassTable} {r s : KlassOop}

open SystemDictionary

/-! ## Updates -/

@[simp] theorem update_supers_self (T : KlassTable) (r : KlassOop) (f : KlassSupers → KlassSupers) :
    (T.update r f).supers r = f (T.supers r) := Function.update_self ..

theorem update_supers_of_ne {t : KlassOop} (ht : t ≠ r) (f : KlassSupers → KlassSupers) :
    (T.update r f).supers t = T.supers t := Function.update_of_ne ht ..

@[simp] theorem update_update (T : KlassTable) (r : KlassOop) (f g : KlassSupers → KlassSupers) :
    (T.update r f).update r g = T.update r fun S => g (f S) := by
  simp [update]

@[simp] theorem update_created (T : KlassTable) (r : KlassOop) (f : KlassSupers → KlassSupers) :
    (T.update r f).created = T.created := rfl

/-! ## Displays -/

/-- What holds of every table that is reachable. -/
structure Sound (D : SystemDictionary) (T : KlassTable) : Prop where
  names : ∀ r, T.created r = true → D.Names r
  supertypes : ∀ r, T.created r = true → ∀ t, D.IsSubtype r t → T.created t = true
  element : ∀ x, T.created (.objArrayKlass x) = true → T.created x = true
  exact : ∀ r, T.created r = true → D.ExactSupers r (T.supers r)
  fresh : ∀ r, T.created r = false → T.supers r = .preinitialized r

theorem Sound.bottomKlass (hT : T.Sound D) (hr : T.created r = true) :
    T.created r.bottomKlass = true := by
  induction r with
  | instanceKlass k => exact hr
  | typeArrayKlass p => exact hr
  | objArrayKlass x ih => exact ih (hT.element x hr)

theorem Sound.superKlass_eq (hT : T.Sound D) (hr : T.Creatable D r) :
    T.superKlass D r = D.superOf r := by
  cases r with
  | instanceKlass k => rfl
  | typeArrayKlass p => rfl
  | objArrayKlass x =>
    have hx := hT.exact x (hr.element x rfl)
    cases hsuper : D.superOf x <;> simp only [superKlass, superOf, hx.super, hsuper]

section Display

variable (h : D.Bootstrapped) (hT : T.Sound D) (hr : T.Creatable D r)
  (hs : D.superOf r = some s)

include h hr hs

/-- The classes above a new klass are allocated already. -/
theorem created_super {t : KlassOop} (ht : D.Chain s t) : T.created t = true ∧ t ≠ r := by
  obtain ⟨hnames, -, hover⟩ := h.superOf_some hr.names hs
  have hover' := h.chain_not_overInterface hnames hover ht
  obtain ⟨hsub, hne⟩ := (h.properSuper_iff hr.names hs hover').mpr ht
  exact ⟨hr.supertypes t hsub hne, hne⟩

include hT

theorem chainFits_iff : (T.update r fun S => { S with super := some s }).chainFits r = true ↔
    D.rank r < primarySuperLimit := by
  obtain ⟨hcreated, hne⟩ := created_super h hr hs Relation.ReflTransGen.refl
  obtain ⟨hnames, hrank, hover⟩ := h.superOf_some hr.names hs
  have hexact := hT.exact s hcreated
  rw [chainFits, update_supers_self]
  simp only [update_supers_of_ne hne, Bool.not_eq_true', decide_eq_false_iff_not]
  by_cases hprimary : D.Primary s
  · rw [hexact.superDepth_primary hprimary]
    omega
  · have hdeep : ¬D.rank s < primarySuperLimit := fun hlt => hprimary ⟨hlt, hover⟩
    rw [hexact.superDepth_secondary hprimary]
    omega

theorem canBePrimarySuperSlow_iff :
    (T.update r fun S => { S with super := some s }).canBePrimarySuperSlow D r = true ↔
      D.Primary r := by
  have hfits := chainFits_iff h hT hr hs
  rw [Primary, ← hfits]
  cases r with
  | instanceKlass k =>
    rw [canBePrimarySuperSlow, overInterface_instanceKlass]
    split <;> simp_all
  | typeArrayKlass p =>
    rw [canBePrimarySuperSlow]
    simp [not_overInterface_typeArrayKlass]
  | objArrayKlass x =>
    have hx : T.created x = true := hr.element x rfl
    have hbottom := hT.exact _ (hT.bottomKlass hx)
    have hne : x.bottomKlass ≠ .objArrayKlass x := by
      intro heq
      have hnew := hr.new
      rw [← heq, hT.bottomKlass hx] at hnew
      cases hnew
    rw [canBePrimarySuperSlow]
    simp only [KlassOop.bottomKlass, update_supers_of_ne hne, Bool.not_eq_true']
    have hprimary := hbottom.canBePrimarySuper_iff
    have hover : D.OverInterface x.bottomKlass ↔ D.OverInterface (.objArrayKlass x) := by
      rw [overInterface_objArrayKlass, OverInterface, OverInterface, bottomKlass_bottomKlass]
    split
    next hfalse =>
      have hnot : ¬D.Primary x.bottomKlass := fun hp => by
        rw [hprimary.mpr hp] at hfalse
        cases hfalse
      simp only [Bool.false_eq_true, false_iff, not_and, not_not]
      intro hlt
      rw [hfits] at hlt
      have hle := rank_bottomKlass_le (D := D) (.objArrayKlass x)
      rw [← hover]
      by_contra hnotover
      exact hnot ⟨hle.trans_lt hlt, hnotover⟩
    next htrue =>
      have hp := hprimary.mp (by simpa using htrue)
      rw [and_iff_left (hover.not.mp hp.2)]

/-- The display of a class that has a place in it. -/
theorem initializeDisplay_primary (hprimary : D.Primary r) :
    T.initializeDisplay D r s = T.update r fun S => { S with
      super := some s
      primarySupers := Function.update
        (fun i => if i < D.rank r then (T.supers s).primarySupers i else S.primarySupers i)
        (D.rank r) (some r)
      superCheckOffset := .primarySuper (D.rank r) } := by
  obtain ⟨hcreated, hne⟩ := created_super h hr hs Relation.ReflTransGen.refl
  obtain ⟨-, hrank, hover⟩ := h.superOf_some hr.names hs
  have hslow := (canBePrimarySuperSlow_iff h hT hr hs).mpr hprimary
  have hlt := hprimary.1
  have hdepth := (hT.exact s hcreated).superDepth_primary ⟨by omega, hover⟩
  rw [initializeDisplay]
  simp only [hslow, update_supers_of_ne hne, hdepth, Bool.not_true, Bool.false_eq_true, if_false,
    ← hrank, Nat.min_eq_left hlt.le, if_pos hlt, update_update]

/-- The display of a class that overflows, or is an interface. -/
theorem initializeDisplay_secondary (hprimary : ¬D.Primary r) :
    T.initializeDisplay D r s = T.update r fun S => { S with
      super := some s
      primarySupers := fun i =>
        if i < primarySuperLimit then (T.supers s).primarySupers i else S.primarySupers i
      superCheckOffset := .secondarySuperCache } := by
  obtain ⟨hcreated, hne⟩ := created_super h hr hs Relation.ReflTransGen.refl
  have hslow := Bool.not_eq_true _ ▸ (canBePrimarySuperSlow_iff h hT hr hs).not.mpr hprimary
  rw [initializeDisplay]
  simp only [hslow, update_supers_of_ne hne, Bool.not_false, if_true, Nat.lt_irrefl, if_false,
    update_update]

end Display

/-! ## Secondary supers -/

section Secondaries

variable (h : D.Bootstrapped) (hT : T.Sound D) (hr : T.Creatable D r)

include h

theorem mem_arrayInterfaces_iff {t : KlassOop} : t ∈ arrayInterfaces D →
    D.OverInterface t ∧ ∃ k, t = .instanceKlass k ∧
      (k = 0 ∨ k = D.cloneableKlass ∨ k = D.serializableKlass) := by
  intro ht
  rcases List.mem_cons.mp ht with rfl | ht
  · exact ⟨overInterface_instanceKlass.mpr h.cloneable.2, _, rfl, Or.inr (Or.inl rfl)⟩
  · obtain rfl := List.mem_singleton.mp ht
    exact ⟨overInterface_instanceKlass.mpr h.serializable.2, _, rfl, Or.inr (Or.inr rfl)⟩

theorem mem_arrayInterfaces {k : Nat}
    (hk : k = 0 ∨ k = D.cloneableKlass ∨ k = D.serializableKlass)
    (hover : D.OverInterface (.instanceKlass k)) : .instanceKlass k ∈ arrayInterfaces D := by
  rcases hk with rfl | rfl | rfl
  · exact absurd hover h.not_overInterface_object
  · exact List.mem_cons_self
  · exact List.mem_cons_of_mem _ List.mem_cons_self

include hT hr

/-- The secondary supertypes that a klass has on its own are supertypes without a place. -/
theorem computeSecondarySupers_sound {t : KlassOop} (ht : t ∈ T.computeSecondarySupers D r) :
    D.IsSubtype r t ∧ t ≠ r ∧ ¬D.Primary t := by
  cases r with
  | instanceKlass k =>
    obtain ⟨hsub, hne, hover⟩ := (h.mem_transitiveInterfaces (names_instanceKlass hr.names)).mp
      (List.mem_map.mp ht)
    exact ⟨hsub, hne, fun hprimary => hprimary.2 hover⟩
  | typeArrayKlass p =>
    obtain ⟨hover, k, rfl, hk⟩ := mem_arrayInterfaces_iff h ht
    exact ⟨hk, by simp, fun hprimary => hprimary.2 hover⟩
  | objArrayKlass x =>
    rcases List.mem_append.mp ht with ht | ht
    · obtain ⟨hover, k, rfl, hk⟩ := mem_arrayInterfaces_iff h ht
      exact ⟨hk, by simp, fun hprimary => hprimary.2 hover⟩
    · obtain ⟨y, hy, rfl⟩ := List.mem_map.mp ht
      obtain ⟨l, hl, hmem⟩ := (hT.exact x (hr.element x rfl)).secondarySupers
      rw [hl] at hy
      obtain ⟨hsub, hne, hprimary⟩ := (hmem y).mp hy
      refine ⟨hsub, fun heq => hne (KlassOop.objArrayKlass.inj heq), fun hp => hprimary ?_⟩
      exact ⟨(Nat.lt_succ_self _).trans hp.1, hp.2⟩

/-- All interfaces, and arrays over them, are among these. -/
theorem computeSecondarySupers_complete {t : KlassOop} (hsub : D.IsSubtype r t) (hne : t ≠ r)
    (hover : D.OverInterface t) : t ∈ T.computeSecondarySupers D r := by
  cases r with
  | instanceKlass k =>
    exact List.mem_map.mpr ((h.mem_transitiveInterfaces (names_instanceKlass hr.names)).mpr
      ⟨hsub, hne, hover⟩)
  | typeArrayKlass p =>
    cases t with
    | instanceKlass k => exact mem_arrayInterfaces h hsub hover
    | typeArrayKlass q => exact absurd (congrArg _ (Eq.symm hsub)) hne
    | objArrayKlass y => exact absurd hsub id
  | objArrayKlass x =>
    refine List.mem_append.mpr ?_
    cases t with
    | instanceKlass k => exact Or.inl (mem_arrayInterfaces h hsub hover)
    | typeArrayKlass q => exact absurd hsub id
    | objArrayKlass y =>
      obtain ⟨l, hl, hmem⟩ := (hT.exact x (hr.element x rfl)).secondarySupers
      refine Or.inr (List.mem_map.mpr ⟨y, ?_, rfl⟩)
      rw [hl]
      exact (hmem y).mpr ⟨hsub, fun heq => hne (heq ▸ rfl), fun hprimary => hprimary.2 hover⟩

end Secondaries

/-- The walk up the chain stops at the first class that has a place in the displays. -/
theorem mem_overflow (h : D.Bootstrapped) {bound : Nat} {p t : KlassOop} (hp : D.Names p)
    (hexact : ∀ q, D.Chain p q → D.ExactSupers q (T.supers q)) (hbound : D.rank p < bound) :
    t ∈ T.overflow bound (some p) ↔ D.Chain p t ∧ ¬D.Primary t := by
  induction bound generalizing p with
  | zero => exact absurd hbound (Nat.not_lt_zero _)
  | succ bound ih =>
    have hself := hexact p Relation.ReflTransGen.refl
    rw [overflow]
    split
    next htrue =>
      have hprimary := hself.canBePrimarySuper_iff.mp htrue
      simp only [List.not_mem_nil, false_iff, not_and, not_not]
      exact h.primary_chain hp hprimary
    next hfalse =>
      have hprimary := hself.canBePrimarySuper_iff.not.mp hfalse
      rw [List.mem_cons, hself.super]
      cases hs : D.superOf p with
      | none =>
        obtain rfl := (h.superOf_eq_none_iff hp).mp hs
        refine absurd ⟨?_, h.not_overInterface_object⟩ hprimary
        rw [h.rank_object]
        exact Nat.zero_lt_succ _
      | some s =>
        obtain ⟨hnames, hrank, -⟩ := h.superOf_some hp hs
        rw [ih hnames (fun q hq => hexact q (hq.head hs)) (by omega)]
        constructor
        · rintro (rfl | ⟨hchain, ht⟩)
          · exact ⟨Relation.ReflTransGen.refl, hprimary⟩
          · exact ⟨hchain.head hs, ht⟩
        · rintro ⟨hchain, ht⟩
          rcases Relation.ReflTransGen.cases_head hchain with rfl | ⟨s', hs', hchain⟩
          · exact Or.inl rfl
          · obtain rfl := Option.some.inj (hs.symm.trans hs')
            exact Or.inr ⟨hchain, ht⟩

/-! ## New klasses -/

section Create

variable (h : D.Bootstrapped) (hT : T.Sound D) (hr : T.Creatable D r)

include h hT hr

theorem mem_secondariesOf {f : KlassSupers → KlassSupers}
    (hsuper : (f (T.supers r)).super = D.superOf r) {t : KlassOop} :
    t ∈ (T.update r f).secondariesOf D r ↔ D.IsSubtype r t ∧ t ≠ r ∧ ¬D.Primary t := by
  have hcompute : (T.update r f).computeSecondarySupers D r = T.computeSecondarySupers D r := by
    cases r with
    | instanceKlass k => rfl
    | typeArrayKlass p => rfl
    | objArrayKlass x =>
      have hne : x ≠ .objArrayKlass x := fun heq => by
        have := congrArg dimension heq
        rw [dimension] at this
        omega
      rw [computeSecondarySupers, computeSecondarySupers, update_supers_of_ne hne]
  rw [secondariesOf, update_supers_self, hsuper, hcompute]
  simp only [List.mem_append, List.mem_reverse, List.mem_filter, decide_eq_true_eq]
  have hsound := computeSecondarySupers_sound h hT hr (t := t)
  cases hs : D.superOf r with
  | none =>
    have hnone : (T.update r f).overflow (D.classes.count + r.dimension + 1) none = [] := rfl
    rw [hnone]
    constructor
    · rintro (⟨hmem, -⟩ | hmem)
      · exact absurd hmem List.not_mem_nil
      · exact hsound hmem
    · rintro ⟨hsub, hne, hprimary⟩
      refine Or.inr (computeSecondarySupers_complete h hT hr hsub hne ?_)
      by_contra hover
      obtain rfl := (h.superOf_eq_none_iff hr.names).mp hs
      rcases Relation.ReflTransGen.cases_head ((h.isSubtype_iff_chain hr.names hover).mp hsub)
        with rfl | ⟨s, hs', -⟩
      · exact hne rfl
      · rw [hs] at hs'
        cases hs'
  | some s =>
    obtain ⟨hnames, hrank, hover⟩ := h.superOf_some hr.names hs
    have hle := h.rank_le hr.names
    rw [mem_overflow h hnames (fun q hq => ?_) (by omega)]
    · constructor
      · rintro (⟨⟨hchain, hprimary⟩, -⟩ | hmem)
        · obtain ⟨hsub, hne⟩ := (h.properSuper_iff hr.names hs
            (h.chain_not_overInterface hnames hover hchain)).mpr hchain
          exact ⟨hsub, hne, hprimary⟩
        · exact hsound hmem
      · rintro ⟨hsub, hne, hprimary⟩
        by_cases hmem : t ∈ T.computeSecondarySupers D r
        · exact Or.inr hmem
        · refine Or.inl ⟨⟨(h.properSuper_iff hr.names hs fun hover => hmem ?_).mp ⟨hsub, hne⟩,
            hprimary⟩, hmem⟩
          exact computeSecondarySupers_complete h hT hr hsub hne hover
    · obtain ⟨hcreated, hne⟩ := created_super h hr hs hq
      rw [update_supers_of_ne hne]
      exact hT.exact q hcreated

/-- The display of a new klass, in terms of that of its superclass. -/
theorem initializeDisplay_exact (hs : D.superOf r = some s) :
    ∃ f, T.initializeDisplay D r s = T.update r f ∧ D.ExactDisplay r (f (T.supers r)) ∧
      (f (T.supers r)).secondarySupers = none ∧ (f (T.supers r)).secondarySuperCache = none := by
  obtain ⟨hcreated, -⟩ := created_super h hr hs Relation.ReflTransGen.refl
  obtain ⟨hnames, hrank, hover⟩ := h.superOf_some hr.names hs
  have hfresh := hT.fresh r hr.new
  have hdisplay := (hT.exact s hcreated).display
  have hbelow : ∀ t, t ≠ r → (D.Chain r t ↔ D.Chain s t) := by
    intro t hne
    constructor
    · intro hchain
      rcases Relation.ReflTransGen.cases_head hchain with rfl | ⟨s', hs', hchain⟩
      · exact absurd rfl hne
      · obtain rfl := Option.some.inj (hs.symm.trans hs')
        exact hchain
    · exact fun hchain => hchain.head hs
  by_cases hprimary : D.Primary r
  · refine ⟨_, initializeDisplay_primary h hT hr hs hprimary, ?_, by rw [hfresh]; rfl,
      by rw [hfresh]; rfl⟩
    refine ⟨hs.symm, fun _ => rfl, fun hnot => absurd hprimary hnot, ?_⟩
    intro i hi t
    simp only [hfresh]
    rcases Nat.lt_trichotomy i (D.rank r) with hlt | rfl | hgt
    · rw [Function.update_of_ne (by omega), if_pos hlt, hdisplay i hi]
      by_cases hne : t = r
      · subst hne
        simp [show D.rank t ≠ i by omega]
      · rw [hbelow t hne]
    · rw [Function.update_self]
      constructor
      · rintro ⟨⟩
        exact ⟨Relation.ReflTransGen.refl, hprimary, rfl⟩
      · rintro ⟨hchain, -, heq⟩
        rw [h.chain_unique hr.names hchain Relation.ReflTransGen.refl heq]
    · rw [Function.update_of_ne (by omega), if_neg (by omega)]
      simp only [KlassSupers.preinitialized, show i ≠ 0 by omega, if_false, reduceCtorEq,
        false_iff]
      rintro ⟨hchain, -, heq⟩
      rcases (h.chain_rank hr.names hchain).2 with rfl | hlt <;> omega
  · refine ⟨_, initializeDisplay_secondary h hT hr hs hprimary, ?_, by rw [hfresh]; rfl,
      by rw [hfresh]; rfl⟩
    refine ⟨hs.symm, fun hp => absurd hp hprimary, fun _ => rfl, ?_⟩
    intro i hi t
    simp only [if_pos hi]
    rw [hdisplay i hi]
    by_cases hne : t = r
    · subst hne
      simp [hprimary]
    · rw [hbelow t hne]

theorem initializeSupers_exact :
    ∃ f, T.initializeSupers D r (D.superOf r) = T.update r f ∧
      D.ExactSupers r (f (T.supers r)) := by
  -- The secondary supers are computed when the display is there.
  have hfinish : ∀ f : KlassSupers → KlassSupers, D.ExactDisplay r (f (T.supers r)) →
      (f (T.supers r)).secondarySuperCache = none →
      D.ExactSupers r { f (T.supers r) with
        secondarySupers := some ((T.update r f).secondariesOf D r) } := by
    intro f hdisplay hcache
    exact { hdisplay with
      secondarySupers := ⟨_, rfl, fun t => mem_secondariesOf h hT hr hdisplay.super⟩
      cache := fun t ht => by rw [hcache] at ht; cases ht }
  have hfresh := hT.fresh r hr.new
  cases hs : D.superOf r with
  | none =>
    obtain rfl := (h.superOf_eq_none_iff hr.names).mp hs
    rw [initializeSupers]
    rw [if_pos (by rw [update_supers_self, hfresh]; rfl), update_update]
    refine ⟨_, rfl, hfinish (fun S => { S with
      super := none
      primarySupers := Function.update S.primarySupers 0 (some objectKlass) }) ?_ ?_⟩
    · have hprimary : D.Primary objectKlass :=
        ⟨by rw [h.rank_object]; exact Nat.zero_lt_succ _, h.not_overInterface_object⟩
      refine ⟨hs.symm, fun _ => ?_, fun hnot => absurd hprimary hnot, fun i hi t => ?_⟩
      · rw [h.rank_object, hfresh]
        rfl
      · have hroot : ∀ t, D.Chain objectKlass t ↔ t = objectKlass := by
          intro t
          constructor
          · intro hchain
            rcases Relation.ReflTransGen.cases_head hchain with rfl | ⟨s, hs', -⟩
            · rfl
            · rw [hs] at hs'
              cases hs'
          · rintro rfl
            exact Relation.ReflTransGen.refl
        rw [hroot, hfresh]
        change Function.update _ 0 _ i = _ ↔ _
        by_cases hi0 : i = 0
        · subst hi0
          rw [Function.update_self]
          constructor
          · rintro ⟨⟩
            exact ⟨rfl, hprimary, h.rank_object⟩
          · rintro ⟨rfl, -, -⟩
            rfl
        · rw [Function.update_of_ne hi0]
          simp only [KlassSupers.preinitialized, if_neg hi0, reduceCtorEq, false_iff]
          rintro ⟨rfl, -, hzero⟩
          rw [h.rank_object] at hzero
          exact hi0 hzero.symm
    · rw [hfresh]
      rfl
  | some s =>
    obtain ⟨f, hf, hdisplay, hnone, hcache⟩ := initializeDisplay_exact h hT hr hs
    rw [initializeSupers]
    rw [if_pos (Or.inl (by rw [hfresh]; simp [KlassSupers.preinitialized])), hf,
      if_pos (by rw [update_supers_self, hnone]), update_update]
    exact ⟨_, rfl, hfinish f hdisplay hcache⟩

theorem Sound.create : (T.create D r).Sound D := by
  obtain ⟨f, hf, hexact⟩ := initializeSupers_exact h hT hr
  have hsupers : (T.create D r).supers = (T.update r f).supers := by
    rw [KlassTable.create, hT.superKlass_eq hr, hf]
  have hcreated : ∀ t, (T.create D r).created t = true ↔ t = r ∨ T.created t = true := by
    intro t
    simp [KlassTable.create]
  constructor
  case names =>
    intro t ht
    rcases (hcreated t).mp ht with rfl | ht
    · exact hr.names
    · exact hT.names t ht
  case supertypes =>
    intro t ht u hu
    rw [hcreated]
    rcases (hcreated t).mp ht with rfl | ht
    · exact or_iff_not_imp_left.mpr fun hne => hr.supertypes u hu hne
    · exact Or.inr (hT.supertypes t ht u hu)
  case element =>
    intro x hx
    rw [hcreated]
    rcases (hcreated _).mp hx with rfl | hx
    · exact Or.inr (hr.element x rfl)
    · exact Or.inr (hT.element x hx)
  case exact =>
    intro t ht
    rw [hsupers]
    by_cases hne : t = r
    · subst hne
      rw [update_supers_self]
      exact hexact
    · rw [update_supers_of_ne hne]
      exact hT.exact t (((hcreated t).mp ht).resolve_left hne)
  case fresh =>
    intro t ht
    have hnot : ¬(t = r ∨ T.created t = true) := by
      rw [← hcreated, ht]
      exact Bool.false_ne_true
    rw [not_or, Bool.not_eq_true] at hnot
    rw [hsupers, update_supers_of_ne hnot.1]
    exact hT.fresh t hnot.2

end Create

/-! ## Checks -/

/-- A check changes nothing but the cache, which it fills with a supertype. -/
theorem Sound.isSubtypeOf (h : D.Bootstrapped) (hT : T.Sound D) {k : KlassOop}
    (hs : T.created s = true) (hk : T.created k = true) :
    ((T.isSubtypeOf s k).1 = true ↔ D.IsSubtype s k) ∧ (T.isSubtypeOf s k).2.Sound D := by
  have hsexact := hT.exact s hs
  have hkexact := hT.exact k hk
  have hnames := hT.names s hs
  rw [KlassTable.isSubtypeOf]
  by_cases hprimary : D.Primary k
  · rw [hkexact.primary hprimary, KlassSupers.load]
    have hdisplay := hsexact.display (D.rank k) hprimary.1 k
    rw [← h.isSubtype_iff_chain hnames hprimary.2] at hdisplay
    split
    next hsup => exact ⟨iff_of_true rfl (hdisplay.mp hsup).1, hT⟩
    next hsup =>
      rw [if_pos (by simp)]
      exact ⟨iff_of_false Bool.false_ne_true fun hsub =>
        hsup (hdisplay.mpr ⟨hsub, hprimary, rfl⟩), hT⟩
  · rw [hkexact.secondary hprimary, KlassSupers.load]
    obtain ⟨l, hl, hmem⟩ := hsexact.secondarySupers
    split
    next hcache => exact ⟨iff_of_true rfl (hsexact.cache k hcache), hT⟩
    next =>
      rw [if_neg (by simp), searchSecondarySupers, hl, Option.getD_some]
      split
      next heq => exact ⟨iff_of_true rfl (heq ▸ isSubtype_refl s), hT⟩
      next hne =>
        split
        next hcontains =>
          obtain ⟨hsub, -, -⟩ := (hmem k).mp (List.contains_iff_mem.mp hcontains)
          refine ⟨iff_of_true rfl hsub, { hT with exact := ?_, fresh := ?_ }⟩
          · intro t ht
            by_cases heq : t = s
            · subst heq
              rw [update_supers_self]
              exact { hsexact with
                cache := fun u hu => by
                  obtain rfl := Option.some.inj hu
                  exact hsub }
            · rw [update_supers_of_ne heq]
              exact hT.exact t ht
          · intro t ht
            rw [update_supers_of_ne fun heq => by
              rw [heq, update_created, hs] at ht
              cases ht]
            exact hT.fresh t ht
        next hcontains =>
          refine ⟨iff_of_false Bool.false_ne_true fun hsub => hcontains ?_, hT⟩
          exact List.contains_iff_mem.mpr ((hmem k).mpr ⟨hsub, fun heq => hne heq.symm, hprimary⟩)

theorem sound_empty : KlassTable.empty.Sound D where
  names _ hr := absurd hr Bool.false_ne_true
  supertypes _ hr := absurd hr Bool.false_ne_true
  element _ hx := absurd hx Bool.false_ne_true
  exact _ hr := absurd hr Bool.false_ne_true
  fresh _ _ := rfl

theorem Reachable.sound (h : D.Bootstrapped) (hT : T.Reachable D) : T.Sound D := by
  induction hT with
  | empty => exact sound_empty
  | create _ hr ih => exact ih.create h hr
  | check s k _ hs hk ih => exact (ih.isSubtypeOf h hs hk).2

/-- A check is right, whatever was allocated and checked before. -/
theorem isSubtypeOf_iff (h : D.Bootstrapped) (hT : T.Reachable D) {s k : KlassOop}
    (hs : T.created s = true) (hk : T.created k = true) :
    (T.isSubtypeOf s k).1 = true ↔ D.IsSubtype s k :=
  ((hT.sound h).isSubtypeOf h hs hk).1

/-- `Object`, `Cloneable` and `Serializable`. -/
def arrayClasses : SystemDictionary where
  classes := ((Hierarchy.object [] false).load ⟨some 0, true, true, false, [], []⟩).load
    ⟨some 0, true, true, false, [], []⟩
  cloneableKlass := 1
  serializableKlass := 2

theorem bootstrapped_arrayClasses : arrayClasses.Bootstrapped where
  loaded := by
    refine .load (.load (.object [] false) ?_) ?_
    · exact ⟨⟨0, by decide, rfl, rfl⟩, by simp, List.nodup_nil, by simp⟩
    · exact ⟨⟨0, by decide, rfl, rfl⟩, by simp, List.nodup_nil, by simp⟩
  cloneable := by decide
  serializable := by decide

/-- A class can be allocated after all classes that were loaded before it. -/
theorem creatable_instanceKlass (h : D.Bootstrapped) {k : Nat} (hk : k < D.classes.count)
    (hnew : T.created (.instanceKlass k) = false)
    (hold : ∀ j < k, T.created (.instanceKlass j) = true) : T.Creatable D (.instanceKlass k) where
  names := by
    rintro _ ⟨⟩
    exact hk
  new := hnew
  supertypes t hsub hne := by
    cases t with
    | instanceKlass j =>
      have hle := h.declared.isSubtype_le hk hsub
      exact hold j (lt_of_le_of_ne hle fun heq => hne (heq ▸ rfl))
    | typeArrayKlass p => exact absurd hsub id
    | objArrayKlass y => exact absurd hsub id
  element x hx := by cases hx

/-- An array of a class can be allocated after the classes, and the arrays of those before it. -/
theorem creatable_objArrayKlass (h : D.Bootstrapped) {k : Nat} (hk : k < D.classes.count)
    (hnew : T.created (.objArrayKlass (.instanceKlass k)) = false)
    (hclasses : ∀ j < D.classes.count, T.created (.instanceKlass j) = true)
    (hold : ∀ j < k, T.created (.objArrayKlass (.instanceKlass j)) = true) :
    T.Creatable D (.objArrayKlass (.instanceKlass k)) where
  names := by
    rintro _ ⟨⟩
    exact hk
  new := hnew
  supertypes t hsub hne := by
    cases t with
    | instanceKlass j =>
      rcases hsub with rfl | rfl | rfl
      · exact hclasses 0 h.declared.pos
      · exact hclasses _ h.cloneable.1
      · exact hclasses _ h.serializable.1
    | typeArrayKlass p => exact absurd hsub id
    | objArrayKlass y =>
      cases y with
      | instanceKlass j =>
        have hle := h.declared.isSubtype_le hk hsub
        exact hold j (lt_of_le_of_ne hle fun heq => hne (heq ▸ rfl))
      | typeArrayKlass p => exact absurd hsub id
      | objArrayKlass y => exact absurd hsub id
  element x hx := by
    cases hx
    exact hclasses k hk

/-- The first classes. -/
def classTable (D : SystemDictionary) : Nat → KlassTable
  | 0 => empty
  | n + 1 => (classTable D n).create D (.instanceKlass n)

/-- All classes, and the arrays of the first. -/
def arrayTable (D : SystemDictionary) : Nat → KlassTable
  | 0 => classTable D D.classes.count
  | n + 1 => (arrayTable D n).create D (.objArrayKlass (.instanceKlass n))

theorem created_classTable (n : Nat) :
    (∀ j, (classTable D n).created (.instanceKlass j) = decide (j < n)) ∧
      ∀ x, (classTable D n).created (.objArrayKlass x) = false := by
  induction n with
  | zero => exact ⟨fun j => rfl, fun x => rfl⟩
  | succ n ih =>
    refine ⟨fun j => ?_, by simp [classTable, create, ih]⟩
    rw [Bool.eq_iff_iff]
    simp [classTable, create, ih]
    omega

theorem created_arrayTable (n : Nat) :
    (∀ j, (arrayTable D n).created (.instanceKlass j) = decide (j < D.classes.count)) ∧
      ∀ j, (arrayTable D n).created (.objArrayKlass (.instanceKlass j)) = decide (j < n) := by
  induction n with
  | zero => simp [arrayTable, created_classTable]
  | succ n ih =>
    refine ⟨by simp [arrayTable, create, ih], fun j => ?_⟩
    rw [Bool.eq_iff_iff]
    simp [arrayTable, create, ih]
    omega

theorem reachable_classTable (h : D.Bootstrapped) {n : Nat} (hn : n ≤ D.classes.count) :
    (classTable D n).Reachable D := by
  induction n with
  | zero => exact .empty
  | succ n ih =>
    refine .create (ih (by omega)) (creatable_instanceKlass h hn ?_ fun j hj => ?_) <;>
      simp_all [created_classTable]

theorem reachable_arrayTable (h : D.Bootstrapped) {n : Nat} (hn : n ≤ D.classes.count) :
    (arrayTable D n).Reachable D := by
  induction n with
  | zero => exact reachable_classTable h (Nat.le_refl _)
  | succ n ih =>
    refine .create (ih (by omega)) (creatable_objArrayKlass h hn ?_ (fun j hj => ?_)
      fun j hj => ?_) <;> simp_all [created_arrayTable]

/-- A class of `Object`, and a chain of classes below it: the last two are too deep for the
display. -/
def chainClasses : Nat → SystemDictionary
  | 0 => { arrayClasses with
      classes := arrayClasses.classes.load ⟨some 0, false, false, false, [], []⟩ }
  | n + 1 => { arrayClasses with
      classes := (chainClasses n).classes.load ⟨some (n + 3), false, false, false, [], []⟩ }

theorem loaded_chain {H : Hierarchy} (h : H.Loaded) {k : Nat} (hk : k < H.count)
    (hclass : (H.klass k).isInterface = false) :
    (H.load ⟨some k, false, false, false, [], []⟩).Loaded :=
  .load h ⟨⟨k, hk, rfl, hclass⟩, by simp, List.nodup_nil, by simp⟩

theorem bootstrapped_chainClasses : (chainClasses 8).Bootstrapped where
  loaded := by
    have h : (chainClasses 0).classes.Loaded :=
      loaded_chain bootstrapped_arrayClasses.loaded (by decide) rfl
    iterate 8 refine loaded_chain ?_ (by decide) rfl
    exact h
  cloneable := by decide
  serializable := by decide

/-- A check that fills the cache of the last class with the class above it. -/
def checkedTable : KlassTable :=
  ((arrayTable (chainClasses 8) 12).isSubtypeOf (.instanceKlass 11) (.instanceKlass 10)).2

set_option maxRecDepth 4000 in
example : (checkedTable.supers (.instanceKlass 11)).secondarySuperCache =
    some (.instanceKlass 10) := rfl

theorem reachable_checkedTable : checkedTable.Reachable (chainClasses 8) :=
  .check _ _ (reachable_arrayTable bootstrapped_chainClasses (Nat.le_refl 12))
    (by rw [(created_arrayTable 12).1]; rfl) (by rw [(created_arrayTable 12).1]; rfl)

theorem created_checkedTable (r : KlassOop) :
    checkedTable.created r = (arrayTable (chainClasses 8) 12).created r := by
  unfold checkedTable isSubtypeOf searchSecondarySupers
  dsimp only
  split_ifs <;> rfl

/-- Arrays of the two classes, which are too deep for the display as well. -/
theorem isSubtypeOf_checkedTable :
    (checkedTable.isSubtypeOf (.objArrayKlass (.instanceKlass 11))
        (.objArrayKlass (.instanceKlass 10))).1 = true ∧
      ¬(checkedTable.isSubtypeOf (.objArrayKlass (.instanceKlass 10))
        (.objArrayKlass (.instanceKlass 11))).1 = true := by
  have hcreated : ∀ j < 12, checkedTable.created (.objArrayKlass (.instanceKlass j)) = true := by
    intro j hj
    rw [created_checkedTable, (created_arrayTable 12).2, decide_eq_true hj]
  have h := bootstrapped_chainClasses
  rw [isSubtypeOf_iff h reachable_checkedTable (hcreated 11 (by decide)) (hcreated 10 (by decide)),
    isSubtypeOf_iff h reachable_checkedTable (hcreated 10 (by decide)) (hcreated 11 (by decide))]
  refine ⟨Relation.ReflTransGen.single (Or.inl rfl), fun hsub => ?_⟩
  exact absurd (h.declared.isSubtype_le (show 10 < _ by decide) hsub) (by decide)

end KlassTable

end HotSpot
