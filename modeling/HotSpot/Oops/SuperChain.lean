import HotSpot.Oops.HierarchyImplementors
import HotSpot.Oops.SubtypeCheck

/-! # The chain of superclasses

The superclass of each klass, arrays included, and how the subtype relation reads on the
chain: above a klass there is no interface on its chain, so being a subtype of something
other than an interface, or an array over one, is being below it on the chain.
-/

namespace HotSpot

namespace Hierarchy

variable {H : Hierarchy}

/-- The number of superclasses, which stops at a bound. -/
def depth (H : Hierarchy) : Nat → Nat → Nat
  | 0, _ => 0
  | bound + 1, k =>
    match (H.klass k).super with
    | none => 0
    | some s => depth H bound s + 1

theorem Declared.depth_eq (h : Declared H) {k bound : Nat} (hk : k < H.count) (hbound : k < bound) :
    H.depth bound k = H.depth (k + 1) k := by
  induction k using Nat.strong_induction_on generalizing bound with
  | _ k ih =>
    obtain ⟨bound, rfl⟩ : ∃ b, bound = b + 1 := ⟨bound - 1, by omega⟩
    rw [depth, depth]
    split
    next => rfl
    next s hs =>
      have hlt := (h.super_lt hk hs).1
      rw [ih s hlt (by omega) (by omega), ih s hlt (by omega) hlt]

theorem Declared.super_eq_none_iff (h : Declared H) {k : Nat} (hk : k < H.count) :
    (H.klass k).super = none ↔ k = 0 := by
  constructor
  · intro hnone
    by_contra hpos
    obtain ⟨s, -, hs, -⟩ := h.super k (by omega) hk
    rw [hnone] at hs
    cases hs
  · rintro rfl
    exact h.root.1

end Hierarchy

namespace SystemDictionary

variable {D : SystemDictionary}

open KlassOop

/-! ## Superclasses -/

def superOf (D : SystemDictionary) : KlassOop → Option KlassOop
  | .instanceKlass k => (D.classes.klass k).super.map .instanceKlass
  | .typeArrayKlass _ => some objectKlass
  | .objArrayKlass x =>
    match superOf D x with
    | some s => some (.objArrayKlass s)
    | none => some objectKlass

/-- The number of superclasses. -/
def rank (D : SystemDictionary) : KlassOop → Nat
  | .instanceKlass k => D.classes.depth (k + 1) k
  | .typeArrayKlass _ => 1
  | .objArrayKlass x => rank D x + 1

/-- An interface, or an array over one. -/
def OverInterface (D : SystemDictionary) (r : KlassOop) : Prop :=
  ∃ k, r.bottomKlass = .instanceKlass k ∧ (D.classes.klass k).isInterface = true

/-- The klasses with an entry in the displays of their subclasses. -/
def Primary (D : SystemDictionary) (r : KlassOop) : Prop :=
  D.rank r < primarySuperLimit ∧ ¬D.OverInterface r

def Chain (D : SystemDictionary) : KlassOop → KlassOop → Prop :=
  Relation.ReflTransGen fun r s => D.superOf r = some s

theorem Bootstrapped.declared (h : D.Bootstrapped) : D.classes.Declared := h.loaded.shaped.declared

theorem names_instanceKlass {k : Nat} (h : D.Names (.instanceKlass k)) : k < D.classes.count :=
  h k rfl

theorem overInterface_instanceKlass {k : Nat} :
    D.OverInterface (.instanceKlass k) ↔ (D.classes.klass k).isInterface = true := by
  simp [OverInterface, bottomKlass]

theorem not_overInterface_typeArrayKlass {p : PrimitiveType} :
    ¬D.OverInterface (.typeArrayKlass p) := by
  simp [OverInterface, bottomKlass]

theorem overInterface_objArrayKlass {x : KlassOop} :
    D.OverInterface (.objArrayKlass x) ↔ D.OverInterface x := Iff.rfl

section Bootstrapped

variable (h : D.Bootstrapped)

include h

theorem Bootstrapped.names_object : D.Names objectKlass := by
  rintro k ⟨⟩
  exact h.declared.pos

theorem Bootstrapped.rank_object : D.rank objectKlass = 0 := by
  rw [objectKlass, rank, Hierarchy.depth, h.declared.root.1]

theorem Bootstrapped.not_overInterface_object : ¬D.OverInterface objectKlass := by
  rw [objectKlass, overInterface_instanceKlass, h.declared.root.2.1]
  exact Bool.false_ne_true

theorem Bootstrapped.superOf_eq_none_iff {r : KlassOop} (hr : D.Names r) :
    D.superOf r = none ↔ r = objectKlass := by
  cases r with
  | instanceKlass k =>
    rw [superOf, Option.map_eq_none_iff, h.declared.super_eq_none_iff (names_instanceKlass hr)]
    simp [objectKlass]
  | typeArrayKlass p => simp [superOf, objectKlass]
  | objArrayKlass x =>
    rw [superOf]
    split <;> simp [objectKlass]

/-- A superclass has one superclass less, and is not an interface. -/
theorem Bootstrapped.superOf_some {r s : KlassOop} (hr : D.Names r) (hs : D.superOf r = some s) :
    D.Names s ∧ D.rank r = D.rank s + 1 ∧ ¬D.OverInterface s := by
  induction r generalizing s with
  | instanceKlass k =>
    obtain ⟨j, hj, rfl⟩ := Option.map_eq_some_iff.mp hs
    have hk := names_instanceKlass hr
    obtain ⟨hlt, hclass⟩ := h.declared.super_lt hk hj
    refine ⟨?_, ?_, ?_⟩
    · rintro _ ⟨⟩
      omega
    · rw [rank, Hierarchy.depth, hj, rank, ← h.declared.depth_eq (by omega) hlt]
    · rw [overInterface_instanceKlass, hclass]
      exact Bool.false_ne_true
  | typeArrayKlass p =>
    obtain rfl := Option.some.inj hs
    exact ⟨h.names_object, by rw [h.rank_object, rank], h.not_overInterface_object⟩
  | objArrayKlass x ih =>
    rw [superOf] at hs
    split at hs
    next s' hs' =>
      obtain rfl := Option.some.inj hs
      obtain ⟨hnames, hrank, hover⟩ := ih hr hs'
      exact ⟨hnames, by rw [rank, hrank, rank], hover⟩
    next hnone =>
      obtain rfl := Option.some.inj hs
      have hx : x = objectKlass := (h.superOf_eq_none_iff (r := x) hr).mp hnone
      refine ⟨h.names_object, ?_, h.not_overInterface_object⟩
      rw [rank, hx, h.rank_object]

/-! ## Chains -/

theorem Bootstrapped.chain_rank {r t : KlassOop} (hr : D.Names r) (hchain : D.Chain r t) :
    D.Names t ∧ (t = r ∨ D.rank t < D.rank r) := by
  induction hchain with
  | refl => exact ⟨hr, Or.inl rfl⟩
  | tail hchain hs ih =>
    obtain ⟨hnames, hrank⟩ := ih
    obtain ⟨hnames', hrank', -⟩ := h.superOf_some hnames hs
    refine ⟨hnames', Or.inr ?_⟩
    rcases hrank with rfl | hrank <;> omega

/-- A klass is the only one of its rank on the chain. -/
theorem Bootstrapped.chain_unique {r t u : KlassOop} (hr : D.Names r) (ht : D.Chain r t)
    (hu : D.Chain r u) (hrank : D.rank t = D.rank u) : t = u := by
  induction ht using Relation.ReflTransGen.head_induction_on with
  | refl =>
    rcases (h.chain_rank hr hu).2 with rfl | hlt
    · rfl
    · omega
  | head hs hchain ih =>
    obtain ⟨hnames, hsucc, -⟩ := h.superOf_some hr hs
    rcases Relation.ReflTransGen.cases_head hu with rfl | ⟨s', hs', hu⟩
    · rcases (h.chain_rank hnames hchain).2 with rfl | hlt <;> omega
    · obtain rfl := Option.some.inj (hs.symm.trans hs')
      exact ih hnames hu

theorem Bootstrapped.chain_object {r : KlassOop} (hr : D.Names r) : D.Chain r objectKlass := by
  induction hn : D.rank r generalizing r with
  | zero =>
    cases hs : D.superOf r with
    | none =>
      rw [(h.superOf_eq_none_iff hr).mp hs]
      exact Relation.ReflTransGen.refl
    | some s =>
      have := (h.superOf_some hr hs).2.1
      omega
  | succ n ih =>
    cases hs : D.superOf r with
    | none =>
      rw [(h.superOf_eq_none_iff hr).mp hs, h.rank_object] at hn
      omega
    | some s =>
      obtain ⟨hnames, hrank, -⟩ := h.superOf_some hr hs
      exact (ih hnames (by omega)).head hs

omit h in
theorem chain_instanceKlass {c : Nat} {t : KlassOop} :
    D.Chain (.instanceKlass c) t ↔ ∃ k, t = .instanceKlass k ∧ D.classes.IsSubclass c k := by
  constructor
  · intro hchain
    induction hchain with
    | refl => exact ⟨c, rfl, Relation.ReflTransGen.refl⟩
    | tail _ hs ih =>
      obtain ⟨k, rfl, hk⟩ := ih
      obtain ⟨s, hsuper, rfl⟩ := Option.map_eq_some_iff.mp hs
      exact ⟨s, rfl, hk.tail hsuper⟩
  · rintro ⟨k, rfl, hk⟩
    induction hk with
    | refl => exact Relation.ReflTransGen.refl
    | tail _ hs ih => exact ih.tail (by rw [superOf, hs]; rfl)

/-- The superclasses of an array are the arrays over superclasses, and `Object`. -/
theorem Bootstrapped.chain_objArrayKlass {x t : KlassOop} (hx : D.Names x) :
    D.Chain (.objArrayKlass x) t ↔ (∃ y, t = .objArrayKlass y ∧ D.Chain x y) ∨ t = objectKlass := by
  have hlift : ∀ y, D.Chain x y → D.Chain (.objArrayKlass x) (.objArrayKlass y) := by
    intro y hy
    induction hy with
    | refl => exact Relation.ReflTransGen.refl
    | tail _ hs ih => exact ih.tail (by rw [superOf, hs])
  constructor
  · intro hchain
    induction hchain with
    | refl => exact Or.inl ⟨x, rfl, Relation.ReflTransGen.refl⟩
    | tail _ hs ih =>
      rcases ih with ⟨y, rfl, hy⟩ | rfl
      · rw [superOf] at hs
        split at hs
        next s hs' => exact Or.inl ⟨s, (Option.some.inj hs).symm, hy.tail hs'⟩
        next => exact Or.inr (Option.some.inj hs).symm
      · rw [(h.superOf_eq_none_iff h.names_object).mpr rfl] at hs
        cases hs
  · rintro (⟨y, rfl, hy⟩ | rfl)
    · exact hlift y hy
    · refine (hlift _ (h.chain_object hx)).tail ?_
      rw [superOf, (h.superOf_eq_none_iff h.names_object).mpr rfl]

/-! ## Subtypes -/

omit h in
theorem isSubtype_refl (r : KlassOop) : D.IsSubtype r r := by
  induction r with
  | instanceKlass k => exact Relation.ReflTransGen.refl
  | typeArrayKlass p => exact rfl
  | objArrayKlass x ih => exact ih

/-- Nothing but the classes that an array implements is named by a bottom class. -/
theorem Bootstrapped.array_supertype {t : Nat} (ht : ¬D.OverInterface (.instanceKlass t)) :
    (t = 0 ∨ t = D.cloneableKlass ∨ t = D.serializableKlass) ↔ t = 0 := by
  rw [overInterface_instanceKlass] at ht
  constructor
  · rintro (hzero | rfl | rfl)
    · exact hzero
    · exact absurd h.cloneable.2 ht
    · exact absurd h.serializable.2 ht
  · exact Or.inl

/-- Only interfaces, and arrays over them, are supertypes off the chain. -/
theorem Bootstrapped.isSubtype_iff_chain {r t : KlassOop} (hr : D.Names r)
    (ht : ¬D.OverInterface t) : D.IsSubtype r t ↔ D.Chain r t := by
  induction r generalizing t with
  | instanceKlass c =>
    have hc := names_instanceKlass hr
    rw [chain_instanceKlass]
    cases t with
    | instanceKlass k =>
      rw [overInterface_instanceKlass, Bool.not_eq_true] at ht
      rw [IsSubtype, h.declared.isSubtype_class hc ht]
      simp
    | typeArrayKlass p => simp [IsSubtype]
    | objArrayKlass y => simp [IsSubtype]
  | typeArrayKlass p =>
    have hchain : D.Chain (.typeArrayKlass p) t ↔ t = .typeArrayKlass p ∨ t = objectKlass := by
      constructor
      · intro hchain
        rcases Relation.ReflTransGen.cases_head hchain with rfl | ⟨s, hs, hchain⟩
        · exact Or.inl rfl
        · obtain rfl := Option.some.inj hs
          obtain ⟨k, rfl, hk⟩ := chain_instanceKlass.mp hchain
          rw [Nat.le_zero.mp (h.declared.isSubclass_le h.declared.pos hk)]
          exact Or.inr rfl
      · rintro (rfl | rfl)
        · exact Relation.ReflTransGen.refl
        · exact h.chain_object hr
    rw [hchain]
    cases t with
    | instanceKlass k =>
      rw [IsSubtype, h.array_supertype ht]
      simp [objectKlass]
    | typeArrayKlass q => simp [IsSubtype, objectKlass, eq_comm]
    | objArrayKlass y => simp [IsSubtype, objectKlass]
  | objArrayKlass x ih =>
    have hx : D.Names x := hr
    rw [h.chain_objArrayKlass hx]
    cases t with
    | instanceKlass k =>
      rw [IsSubtype, h.array_supertype ht]
      simp [objectKlass]
    | typeArrayKlass q => simp [IsSubtype, objectKlass]
    | objArrayKlass y =>
      rw [IsSubtype, ih hx (overInterface_objArrayKlass.not.mp ht)]
      simp [objectKlass]

/-- The supertypes off the chain of a class are its transitive interfaces. -/
theorem Bootstrapped.mem_transitiveInterfaces {c : Nat} (hc : c < D.classes.count) {t : KlassOop} :
    (∃ i ∈ (D.classes.klass c).transitiveInterfaces, KlassOop.instanceKlass i = t) ↔
      D.IsSubtype (.instanceKlass c) t ∧ t ≠ .instanceKlass c ∧ D.OverInterface t := by
  constructor
  · rintro ⟨i, hi, rfl⟩
    obtain ⟨hlt, hinterface⟩ := h.declared.transitive_lt hc hi
    refine ⟨(h.declared.isSubtype_iff hc).mpr (Or.inr hi), ?_,
      overInterface_instanceKlass.mpr hinterface⟩
    rintro ⟨⟩
    exact Nat.lt_irrefl _ hlt
  · rintro ⟨hsub, hne, hover⟩
    cases t with
    | instanceKlass k =>
      rw [overInterface_instanceKlass] at hover
      refine ⟨k, ?_, rfl⟩
      rcases (h.declared.isSubtype_iff hc).mp hsub with hclass | hi
      · rcases Relation.ReflTransGen.cases_tail hclass with rfl | ⟨b, hb, hs⟩
        · exact absurd rfl hne
        · have hbc := (h.declared.isSubclass_le hc hb).trans_lt hc
          rw [(h.declared.super_lt hbc hs).2] at hover
          cases hover
      · exact hi
    | typeArrayKlass p => exact absurd hsub id
    | objArrayKlass y => exact absurd hsub id

end Bootstrapped

end SystemDictionary

end HotSpot
