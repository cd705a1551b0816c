import HotSpot.Oops.Hierarchy

/-! # Implementors and supertypes

An interface remembers the first classes that implement it on their own. Every class
that implements it is below one that was registered with it, also when the list of
them has overflowed.
-/

namespace HotSpot.Hierarchy

variable {H H' : Hierarchy}

/-! ## Supertypes -/

theorem IsSubclass.isSubtype {c t : Nat} (h : H.IsSubclass c t) : H.IsSubtype c t :=
  Relation.ReflTransGen.mono (fun _ _ hs => Or.inl hs) c t h

namespace Declared

variable (h : Declared H)

include h

theorem super_lt {k s : Nat} (hk : k < H.count) (hs : (H.klass k).super = some s) :
    s < k ∧ (H.klass s).isInterface = false := by
  rcases Nat.eq_zero_or_pos k with rfl | hpos
  · rw [h.root.1] at hs
    cases hs
  · obtain ⟨s', hlt, hs', hclass⟩ := h.super k hpos hk
    obtain rfl := Option.some.inj (hs.symm.trans hs')
    exact ⟨hlt, hclass⟩

theorem directSuper_lt {k t : Nat} (hk : k < H.count) (ht : H.DirectSuper k t) : t < k := by
  rcases ht with hs | hl
  · exact (h.super_lt hk hs).1
  · exact (h.locals k hk t hl).1

theorem isSubtype_le {c t : Nat} (hc : c < H.count) (ht : H.IsSubtype c t) : t ≤ c := by
  induction ht with
  | refl => exact Nat.le_refl c
  | tail hsub hdirect ih =>
    exact (h.directSuper_lt (Nat.lt_of_le_of_lt ih hc) hdirect).le.trans ih

theorem isSubclass_le {c t : Nat} (hc : c < H.count) (ht : H.IsSubclass c t) : t ≤ c :=
  h.isSubtype_le hc ht.isSubtype

theorem isSubclass_zero {c : Nat} (hc : c < H.count) : H.IsSubclass c 0 := by
  induction c using Nat.strong_induction_on with
  | _ c ih =>
    rcases Nat.eq_zero_or_pos c with rfl | hpos
    · exact Relation.ReflTransGen.refl
    · obtain ⟨s, hlt, hs, -⟩ := h.super c hpos hc
      exact (ih s hlt (by omega)).head hs

theorem transitive_root : (H.klass 0).transitiveInterfaces = [] := by
  refine List.eq_nil_iff_forall_not_mem.mpr fun i hi => ?_
  rcases (h.transitive 0 h.pos i).mp hi with ⟨s, hs, -⟩ | ⟨l, hl, -⟩
  · rw [h.root.1] at hs
    cases hs
  · rw [h.root.2.2.2] at hl
    exact List.not_mem_nil hl

/-- The transitive interfaces are the interfaces among the proper supertypes. -/
theorem isSubtype_iff {c t : Nat} (hc : c < H.count) :
    H.IsSubtype c t ↔ H.IsSubclass c t ∨ t ∈ (H.klass c).transitiveInterfaces := by
  induction c using Nat.strong_induction_on generalizing t with
  | _ c ih =>
    constructor
    · intro hsub
      rcases Relation.ReflTransGen.cases_head hsub with rfl | ⟨d, hd, hdt⟩
      · exact Or.inl Relation.ReflTransGen.refl
      · have hlt := h.directSuper_lt hc hd
        rcases hd with hs | hl
        · rcases (ih d hlt (by omega)).mp hdt with hclass | hi
          · exact Or.inl (hclass.head hs)
          · exact Or.inr ((h.transitive c hc t).mpr (Or.inl ⟨d, hs, hi⟩))
        · rcases (ih d hlt (by omega)).mp hdt with hclass | hi
          · -- Above an interface there is only `Object`, which is above the class too.
            rcases Relation.ReflTransGen.cases_head hclass with rfl | ⟨o, ho, hot⟩
            · exact Or.inr ((h.transitive c hc d).mpr (Or.inr ⟨d, hl, Or.inl rfl⟩))
            · have hroot := (h.interface d (by omega) (h.locals c hc d hl).2).1
              obtain rfl := Option.some.inj (hroot.symm.trans ho)
              have ht : t = 0 := Nat.le_zero.mp (h.isSubclass_le h.pos hot)
              exact Or.inl (ht ▸ h.isSubclass_zero hc)
          · exact Or.inr ((h.transitive c hc t).mpr (Or.inr ⟨d, hl, Or.inr hi⟩))
    · rintro (hclass | hi)
      · exact hclass.isSubtype
      · rcases (h.transitive c hc t).mp hi with ⟨s, hs, hi⟩ | ⟨l, hl, rfl | hi⟩
        · have hlt := (h.super_lt hc hs).1
          exact ((ih s hlt (by omega)).mpr (Or.inr hi)).head (Or.inl hs)
        · exact Relation.ReflTransGen.single (Or.inr hl)
        · have hlt := (h.locals c hc l hl).1
          exact ((ih l hlt (by omega)).mpr (Or.inr hi)).head (Or.inr hl)

theorem transitive_lt {k i : Nat} (hk : k < H.count)
    (hi : i ∈ (H.klass k).transitiveInterfaces) : i < k ∧ (H.klass i).isInterface = true := by
  induction k using Nat.strong_induction_on with
  | _ k ih =>
    rcases (h.transitive k hk i).mp hi with ⟨s, hs, hi⟩ | ⟨l, hl, rfl | hi⟩
    · have hlt := (h.super_lt hk hs).1
      obtain ⟨his, hinterface⟩ := ih s hlt (by omega) hi
      exact ⟨by omega, hinterface⟩
    · exact h.locals k hk i hl
    · have hlt := (h.locals k hk l hl).1
      obtain ⟨hil, hinterface⟩ := ih l hlt (by omega) hi
      exact ⟨by omega, hinterface⟩

theorem transitive_trans {k i j : Nat} (hk : k < H.count)
    (hi : i ∈ (H.klass k).transitiveInterfaces) (hj : j ∈ (H.klass i).transitiveInterfaces) :
    j ∈ (H.klass k).transitiveInterfaces := by
  induction k using Nat.strong_induction_on with
  | _ k ih =>
    rw [h.transitive k hk j]
    rcases (h.transitive k hk i).mp hi with ⟨s, hs, hi⟩ | ⟨l, hl, rfl | hi⟩
    · have hlt := (h.super_lt hk hs).1
      exact Or.inl ⟨s, hs, ih s hlt (by omega) hi⟩
    · exact Or.inr ⟨i, hl, Or.inr hj⟩
    · have hlt := (h.locals k hk l hl).1
      exact Or.inr ⟨l, hl, Or.inr (ih l hlt (by omega) hi)⟩

theorem isSubtype_class {c t : Nat} (hc : c < H.count)
    (ht : (H.klass t).isInterface = false) : H.IsSubtype c t ↔ H.IsSubclass c t := by
  rw [h.isSubtype_iff hc]
  refine or_iff_left fun hi => ?_
  rw [(h.transitive_lt hc hi).2] at ht
  cases ht

theorem isSubtype_interface {c t : Nat} (hc : c < H.count)
    (hclass : (H.klass c).isInterface = false) (ht : (H.klass t).isInterface = true) :
    H.IsSubtype c t ↔ t ∈ (H.klass c).transitiveInterfaces := by
  rw [h.isSubtype_iff hc]
  refine or_iff_right fun hsub => ?_
  rcases Relation.ReflTransGen.cases_tail hsub with rfl | ⟨b, hb, hs⟩
  · rw [hclass] at ht
    cases ht
  · have hbc : b < H.count := (h.isSubclass_le hc hb).trans_lt hc
    rw [(h.super_lt hbc hs).2] at ht
    cases ht

omit h in
theorem superImplements_iff {k s i : Nat} (hs : (H.klass k).super = some s) :
    H.superImplements k i = true ↔ s = i ∨ i ∈ (H.klass s).transitiveInterfaces := by
  simp [Hierarchy.superImplements, hs, implementsInterface]

theorem superImplements_above {k i j : Nat} (hk : k < H.count)
    (hi : H.superImplements k i = true)
    (hj : j = i ∨ j ∈ (H.klass i).transitiveInterfaces) : H.superImplements k j = true := by
  rcases hj with rfl | hj
  · exact hi
  · cases hs : (H.klass k).super with
    | none => simp [Hierarchy.superImplements, hs] at hi
    | some s =>
      have hlt := (h.super_lt hk hs).1
      rw [superImplements_iff hs] at hi ⊢
      rcases hi with rfl | hi
      · exact Or.inr hj
      · exact Or.inr (h.transitive_trans (by omega) hi hj)

end Declared

/-! ## Registration -/

/-- The interface (or class) `i` has these implementors, of which it remembers them
all or none. -/
def Implementors (H : Hierarchy) (i : Nat) (regs : List Nat) : Prop :=
  (H.klass i).nofImplementors = regs.length ∧
    (H.klass i).implementors = if regs.length ≤ implementorsLimit then regs else []

/-- Two hierarchies with the same classes linked in the same way, but for `k` being added
to the implementors of each interface so many times. -/
structure Registers (k : Nat) (times : Nat → Nat) (H H' : Hierarchy) : Prop where
  decls : SameDecls H H'
  subklass : ∀ c, (H'.klass c).subklass = (H.klass c).subklass
  nextSibling : ∀ c, (H'.klass c).nextSibling = (H.klass c).nextSibling
  implementors : ∀ i regs, Implementors H i regs →
    Implementors H' i (regs ++ List.replicate (times i) k)

namespace Registers

variable {k : Nat} {times times' : Nat → Nat}

theorem refl (k : Nat) (H : Hierarchy) : Registers k (fun _ => 0) H H :=
  ⟨SameDecls.refl H, fun _ => rfl, fun _ => rfl, fun i regs h => by simpa using h⟩

theorem trans {H'' : Hierarchy} (h : Registers k times H H') (h' : Registers k times' H' H'') :
    Registers k (fun i => times i + times' i) H H'' := by
  refine ⟨h.decls.trans h'.decls, fun c => (h'.subklass c).trans (h.subklass c),
    fun c => (h'.nextSibling c).trans (h.nextSibling c), fun i regs hregs => ?_⟩
  rw [List.replicate_add, ← List.append_assoc]
  exact h'.implementors i _ (h.implementors i regs hregs)

end Registers

theorem registers_registerImplementor (H : Hierarchy) (i k : Nat) :
    Registers k (fun j => if j = i then 1 else 0) H (H.registerImplementor i k) := by
  refine ⟨sameDecls_update rfl rfl, fun c => ?_, fun c => ?_, fun j regs hregs => ?_⟩
  · by_cases hc : c = i
    · subst hc
      simp [registerImplementor, update]
    · simp [registerImplementor, update, hc]
  · by_cases hc : c = i
    · subst hc
      simp [registerImplementor, update]
    · simp [registerImplementor, update, hc]
  · by_cases hj : j = i
    · subst hj
      obtain ⟨hnof, hlist⟩ := hregs
      refine ⟨by simp [registerImplementor, update, hnof], ?_⟩
      simp only [registerImplementor, update, Function.update_self, hnof, hlist, if_true,
        List.replicate_one, List.length_append, List.length_singleton]
      rcases Nat.lt_trichotomy regs.length implementorsLimit with hlt | heq | hgt
      · rw [if_pos hlt, if_pos (Nat.le_of_lt hlt), if_pos (Nat.succ_le_of_lt hlt)]
      · rw [if_neg (by omega), if_pos heq, if_neg (by omega)]
      · rw [if_neg (by omega), if_neg (by omega), if_neg (by omega), if_neg (by omega)]
    · simpa [Implementors, registerImplementor, update, hj] using hregs

/-- The interfaces that `k` comes to be registered with for the sake of some interface:
only ones above it, and all of them that the superclass of `k` does not implement. -/
structure RegistersAbove (k : Nat) (ls : List Nat) (H H' : Hierarchy) (times : Nat → Nat) :
    Prop where
  registers : Registers k times H H'
  above : ∀ j, 0 < times j → ∃ l ∈ ls, j = l ∨ j ∈ (H.klass l).transitiveInterfaces
  all : ∀ l ∈ ls, ∀ j, (j = l ∨ j ∈ (H.klass l).transitiveInterfaces) →
    H.superImplements k j = false → 0 < times j

theorem RegistersAbove.cons {k l : Nat} {ls : List Nat} {H'' : Hierarchy} {times times' : Nat → Nat}
    (h : RegistersAbove k [l] H H' times) (h' : RegistersAbove k ls H' H'' times') :
    RegistersAbove k (l :: ls) H H'' fun i => times i + times' i := by
  refine ⟨h.registers.trans h'.registers, fun j hj => ?_, fun l' hl' j hj hsuper => ?_⟩
  · by_cases htimes : 0 < times j
    · obtain ⟨l', hl', hjl⟩ := h.above j htimes
      exact ⟨l', List.mem_cons.mpr (Or.inl (List.mem_singleton.mp hl')), hjl⟩
    · obtain ⟨l', hl', hjl⟩ := h'.above j (by omega)
      rw [h.registers.decls.transitive] at hjl
      exact ⟨l', List.mem_cons_of_mem _ hl', hjl⟩
  · rcases List.mem_cons.mp hl' with rfl | hl'
    · exact Nat.add_pos_left (h.all l' (List.mem_singleton_self _) j hj hsuper) _
    · refine Nat.add_pos_right _ (h'.all l' hl' j ?_ ?_)
      · rwa [h.registers.decls.transitive]
      · rwa [h.registers.decls.superImplements]

/-- Adding an implementor to interfaces one by one, given what adding it to one does. -/
theorem registersAbove_foldl (add : Hierarchy → Nat → Hierarchy) (ls : List Nat) {k : Nat}
    (hadd : ∀ H' : Hierarchy, SameDecls H H' → ∀ l ∈ ls,
      ∃ times, RegistersAbove k [l] H' (add H' l) times) :
    ∃ times, RegistersAbove k ls H (ls.foldl add H) times := by
  induction ls generalizing H with
  | nil =>
    exact ⟨_, Registers.refl k H, fun j hj => absurd hj (Nat.lt_irrefl 0),
      fun l hl => absurd hl List.not_mem_nil⟩
  | cons l ls ih =>
    obtain ⟨times, hl⟩ := hadd H (SameDecls.refl H) l List.mem_cons_self
    obtain ⟨times', hls⟩ := ih (H := add H l) fun H' hsame l' hl' =>
      hadd H' (hl.registers.decls.trans hsame) l' (List.mem_cons_of_mem l hl')
    exact ⟨_, hl.cons hls⟩

theorem addImplementor_registersAbove {k : Nat} {depth : Nat} (hdecl : Declared H)
    (hk : k < H.count) (hclass : (H.klass k).isInterface = false) {i : Nat} (hi : i < H.count)
    (hinterface : (H.klass i).isInterface = true) (hdepth : i < depth) :
    ∃ times, RegistersAbove k [i] H (addImplementor k depth H i) times := by
  induction depth generalizing H i with
  | zero => exact absurd hdepth (Nat.not_lt_zero i)
  | succ depth ih =>
    rw [addImplementor, if_neg (by simp [hclass])]
    split
    next hsuper =>
      -- A superclass that implements the interface implements those above it, too.
      refine ⟨_, Registers.refl k H, fun j hj => absurd hj (Nat.lt_irrefl 0),
        fun l hl j hj hnot => ?_⟩
      rw [List.mem_singleton.mp hl] at hj
      rw [hdecl.superImplements_above hk hsuper hj] at hnot
      cases hnot
    next hsuper =>
      have hreg := registers_registerImplementor H i k
      simp only [hreg.decls.localInterfaces]
      have hdecl' := hreg.decls.declared hdecl
      obtain ⟨times, habove⟩ := registersAbove_foldl (k := k) (H := H.registerImplementor i k)
        (addImplementor k depth) (H.klass i).localInterfaces
        fun H' hsame l hl => by
          have hlocal := hdecl.locals i hi l hl
          have hsame' := hreg.decls.trans hsame
          refine ih (hsame'.declared hdecl) ?_ ?_ ?_ ?_ (by omega)
          · rw [hsame'.count]; exact hk
          · rw [hsame'.isInterface]; exact hclass
          · rw [hsame'.count]; omega
          · rw [hsame'.isInterface]; exact hlocal.2
      have hup : ∀ j, j ∈ (H.klass i).transitiveInterfaces ↔
          ∃ l ∈ (H.klass i).localInterfaces, j = l ∨ j ∈ (H.klass l).transitiveInterfaces := by
        intro j
        rw [hdecl.transitive i hi j]
        refine or_iff_right ?_
        rintro ⟨s, hs, hj⟩
        rw [(hdecl.interface i hi hinterface).1] at hs
        cases hs
        rw [hdecl.transitive_root] at hj
        exact List.not_mem_nil hj
      refine ⟨_, hreg.trans habove.registers, fun j hj => ?_, fun l hl j hj hnot => ?_⟩
      · refine ⟨i, List.mem_singleton_self i, ?_⟩
        by_cases hji : j = i
        · exact Or.inl hji
        · simp only [if_neg hji, Nat.zero_add] at hj
          obtain ⟨l, hl, hjl⟩ := habove.above j hj
          rw [hreg.decls.transitive] at hjl
          exact Or.inr ((hup j).mpr ⟨l, hl, hjl⟩)
      · rw [List.mem_singleton.mp hl] at hj
        rcases hj with rfl | hj
        · simp
        · obtain ⟨l', hl', hjl⟩ := (hup j).mp hj
          refine Nat.add_pos_right _ (habove.all l' hl' j ?_ ?_)
          · rwa [hreg.decls.transitive]
          · rwa [hreg.decls.superImplements]

/-- What putting a class into the lists of its interfaces does. -/
theorem processInterfaces_registersAbove {k : Nat} (hdecl : Declared H) (hk : k < H.count)
    (hclass : (H.klass k).isInterface = false) :
    ∃ times, RegistersAbove k (H.klass k).localInterfaces.reverse H (H.processInterfaces k)
      times := by
  refine registersAbove_foldl _ _ fun H' hsame l hl => ?_
  have hlocal := hdecl.locals k hk l (List.mem_reverse.mp hl)
  refine addImplementor_registersAbove (hsame.declared hdecl) ?_ ?_ ?_ ?_ (by omega)
  · rw [hsame.count]; exact hk
  · rw [hsame.isInterface]; exact hclass
  · rw [hsame.count]; omega
  · rw [hsame.isInterface]; exact hlocal.2

/-- An interface is not put into the lists of the ones it extends. -/
theorem processInterfaces_interface {k : Nat} (hinterface : (H.klass k).isInterface = true)
    (hpos : 0 < H.count) : H.processInterfaces k = H := by
  obtain ⟨depth, hdepth⟩ := Nat.exists_eq_succ_of_ne_zero (Nat.ne_of_gt hpos)
  have hadd : ∀ i, addImplementor k H.count H i = H := fun i => by
    rw [hdepth, addImplementor, if_pos hinterface]
  rw [processInterfaces]
  generalize (H.klass k).localInterfaces.reverse = ls
  induction ls with
  | nil => rfl
  | cons l ls ih => rw [List.foldl_cons, hadd l, ih]

/-! ## Every loaded hierarchy -/

/-- The classes below `n` that implement an interface are below classes that were
registered with it. -/
def RegisteredBelow (H : Hierarchy) (n : Nat) : Prop :=
  ∀ i < H.count, ∃ regs, Implementors H i regs ∧
    (∀ r ∈ regs, r < H.count ∧ (H.klass r).isInterface = false ∧
      i ∈ (H.klass r).transitiveInterfaces) ∧
    ∀ c < n, (H.klass c).isInterface = false → i ∈ (H.klass c).transitiveInterfaces →
      ∃ r ∈ regs, H.IsSubclass c r

/-- What holds of a hierarchy that was built by loading classes. -/
structure Shaped (H : Hierarchy) : Prop where
  declared : Declared H
  siblings : Siblings H
  registered : RegisteredBelow H H.count

theorem appendToSiblingList_implementors (H : Hierarchy) (k c : Nat) :
    ((H.appendToSiblingList k).klass c).nofImplementors = (H.klass c).nofImplementors ∧
      ((H.appendToSiblingList k).klass c).implementors = (H.klass c).implementors := by
  have hupdate : ∀ (H : Hierarchy) (j : Nat) (f : LinkedKlass → LinkedKlass),
      (f (H.klass j)).nofImplementors = (H.klass j).nofImplementors ∧
        (f (H.klass j)).implementors = (H.klass j).implementors →
      ((H.update j f).klass c).nofImplementors = (H.klass c).nofImplementors ∧
        ((H.update j f).klass c).implementors = (H.klass c).implementors := by
    intro H j f hf
    by_cases hc : c = j
    · subst hc
      simpa [update] using hf
    · simp [update, hc]
  rw [appendToSiblingList]
  split
  next => exact ⟨rfl, rfl⟩
  next s _ =>
    simp only
    have hfirst := hupdate H k (fun klass => { klass with nextSibling := (H.klass s).subklass })
      ⟨rfl, rfl⟩
    split
    next =>
      obtain ⟨hnof, himpl⟩ := hupdate (H.update k fun klass =>
        { klass with nextSibling := (H.klass s).subklass }) s
        (fun klass => { klass with subklass := some k }) ⟨rfl, rfl⟩
      exact ⟨hnof.trans hfirst.1, himpl.trans hfirst.2⟩
    next => exact hupdate H s (fun klass => { klass with subklass := some k }) ⟨rfl, rfl⟩

theorem isSubclass_create {d : KlassDecl} (hdecl : Declared H) {c t : Nat} (hc : c < H.count)
    (h : H.IsSubclass c t) : (H.create d).IsSubclass c t := by
  induction h using Relation.ReflTransGen.head_induction_on with
  | refl => exact Relation.ReflTransGen.refl
  | head hs _ ih =>
    refine Relation.ReflTransGen.head ?_ (ih ((hdecl.super_lt hc hs).1.trans hc))
    rw [klass_create_of_lt hc]
    exact hs

/-- Before its interfaces are processed, a new class is the only one not accounted for. -/
theorem RegisteredBelow.create (h : RegisteredBelow H H.count) (hdecl : Declared H)
    {d : KlassDecl} (hdecl' : Declared (H.create d)) :
    RegisteredBelow ((H.create d).appendToSiblingList H.count) H.count := by
  have hold : ∀ k < H.count, (H.create d).klass k = H.klass k := fun k hk => klass_create_of_lt hk
  have hsame := (H.create d).sameDecls_appendToSiblingList H.count
  intro i hi
  rw [hsame.count] at hi ⊢
  have himpl := (H.create d).appendToSiblingList_implementors H.count i
  rcases Nat.lt_succ_iff_lt_or_eq.mp hi with hi | rfl
  · obtain ⟨regs, hregs, habove, hall⟩ := h i hi
    refine ⟨regs, ?_, fun r hr => ?_, fun c hc hclass hci => ?_⟩
    · rw [Implementors, himpl.1, himpl.2, hold i hi]
      exact hregs
    · obtain ⟨hrc, hclass, hir⟩ := habove r hr
      rw [hsame.isInterface, hsame.transitive, hold r hrc]
      exact ⟨Nat.lt_succ_of_lt hrc, hclass, hir⟩
    · rw [hsame.isInterface, hold c hc] at hclass
      rw [hsame.transitive, hold c hc] at hci
      obtain ⟨r, hr, hcr⟩ := hall c hc hclass hci
      exact ⟨r, hr, (hsame.isSubclass c r).mpr (isSubclass_create hdecl hc hcr)⟩
  · refine ⟨[], ?_, fun r hr => absurd hr List.not_mem_nil, fun c hc _ hci => ?_⟩
    · rw [Implementors, himpl.1, himpl.2, klass_create_self]
      simp
    · rw [hsame.transitive] at hci
      have hlt := (hdecl'.transitive_lt (Nat.lt_succ_of_lt hc) hci).1
      omega

theorem Siblings.registers {k : Nat} {times : Nat → Nat} (h : Siblings H)
    (hreg : Registers k times H H') : Siblings H' := by
  intro c hc
  rw [hreg.decls.count] at hc ⊢
  obtain ⟨l, hl, hsorted, hmem⟩ := h c hc
  refine ⟨l, ?_, hsorted, fun c' => ?_⟩
  · rw [hreg.subklass]
    exact hl.congr fun c' _ => hreg.nextSibling c'
  · rw [hmem c', hreg.decls.super]

/-- Processing the interfaces of the last class accounts for it. -/
theorem RegisteredBelow.processInterfaces {k : Nat} {times : Nat → Nat} (hdecl : Declared H)
    (hcount : H.count = k + 1) (hclass : (H.klass k).isInterface = false)
    (h : RegisteredBelow H k)
    (hreg : RegistersAbove k (H.klass k).localInterfaces.reverse H H' times) :
    RegisteredBelow H' H'.count := by
  have hsame := hreg.registers.decls
  have hk : k < H.count := by omega
  intro i hi
  rw [hsame.count] at hi
  obtain ⟨regs, hregs, habove, hall⟩ := h i hi
  refine ⟨_, hreg.registers.implementors i regs hregs, fun r hr => ?_, fun c hc hcclass hci => ?_⟩
  · rw [hsame.count, hsame.isInterface, hsame.transitive]
    rcases List.mem_append.mp hr with hr | hr
    · exact habove r hr
    · obtain ⟨htimes, rfl⟩ := List.mem_replicate.mp hr
      obtain ⟨l, hl, hil⟩ := hreg.above i (Nat.pos_of_ne_zero htimes)
      exact ⟨hk, hclass, (hdecl.transitive r hk i).mpr (Or.inr ⟨l, List.mem_reverse.mp hl, hil⟩)⟩
  · rw [hsame.count, hcount] at hc
    rw [hsame.isInterface] at hcclass
    rw [hsame.transitive] at hci
    rcases Nat.lt_succ_iff_lt_or_eq.mp hc with hc | rfl
    · obtain ⟨r, hr, hcr⟩ := hall c hc hcclass hci
      exact ⟨r, List.mem_append_left _ hr, (hsame.isSubclass c r).mpr hcr⟩
    · cases hsuper : H.superImplements c i with
      | true =>
        cases hs : (H.klass c).super with
        | none => simp [superImplements, hs] at hsuper
        | some s =>
          obtain ⟨hsc, hsclass⟩ := hdecl.super_lt hk hs
          have his : i ∈ (H.klass s).transitiveInterfaces := by
            rcases (Declared.superImplements_iff hs).mp hsuper with rfl | his
            · rw [(hdecl.transitive_lt hk hci).2] at hsclass
              cases hsclass
            · exact his
          obtain ⟨r, hr, hsr⟩ := hall s hsc hsclass his
          exact ⟨r, List.mem_append_left _ hr, (hsame.isSubclass c r).mpr (hsr.head hs)⟩
      | false =>
        -- The superclass does not implement the interface: the class itself was registered.
        have hlocal : ∃ l ∈ (H.klass c).localInterfaces,
            i = l ∨ i ∈ (H.klass l).transitiveInterfaces := by
          rcases (hdecl.transitive c hk i).mp hci with ⟨s, hs, his⟩ | hl
          · rw [(Declared.superImplements_iff hs).mpr (Or.inr his)] at hsuper
            cases hsuper
          · exact hl
        obtain ⟨l, hl, hil⟩ := hlocal
        have htimes := hreg.all l (List.mem_reverse.mpr hl) i hil hsuper
        refine ⟨c, List.mem_append_right _ (List.mem_replicate.mpr ⟨by omega, rfl⟩), ?_⟩
        exact Relation.ReflTransGen.refl

/-- Loading a class keeps the shape. -/
theorem Shaped.load (h : Shaped H) {d : KlassDecl} (hd : H.Loadable d) : Shaped (H.load d) := by
  have hsame := (H.create d).sameDecls_appendToSiblingList H.count
  have hcreate := h.declared.create hd
  have hdecl := hsame.declared hcreate
  have hsiblings := h.siblings.load h.declared hd
  have hbelow := h.registered.create h.declared hcreate
  have hcount : ((H.create d).appendToSiblingList H.count).count = H.count + 1 := hsame.count
  rw [Hierarchy.load]
  cases hclass : (((H.create d).appendToSiblingList H.count).klass H.count).isInterface with
  | true =>
    rw [processInterfaces_interface hclass (by omega)]
    refine ⟨hdecl, hsiblings, fun i hi => ?_⟩
    obtain ⟨regs, hregs, habove, hall⟩ := hbelow i hi
    refine ⟨regs, hregs, habove, fun c hc hcclass hci => hall c ?_ hcclass hci⟩
    have hne : c ≠ H.count := by
      rintro rfl
      rw [hclass] at hcclass
      cases hcclass
    omega
  | false =>
    obtain ⟨times, hreg⟩ := processInterfaces_registersAbove hdecl (by omega) hclass
    exact ⟨hreg.registers.decls.declared hdecl, hsiblings.registers hreg.registers,
      hbelow.processInterfaces hdecl hcount hclass hreg⟩

theorem shaped_object (methods : List MethodDecl) (hasFinalizer : Bool) :
    Shaped (object methods hasFinalizer) := by
  have hzero : ∀ k < (object methods hasFinalizer).count, k = 0 := fun k hk =>
    Nat.lt_one_iff.mp hk
  constructor
  case declared =>
    refine ⟨Nat.one_pos, ⟨rfl, rfl, rfl, rfl⟩, fun k hpos hk => ?_, fun k hk => ?_, fun k hk => ?_,
      fun k hk => ?_, fun k hk => ?_⟩
    · exact absurd (hzero k hk) (by omega)
    all_goals obtain rfl := hzero k hk
    · exact fun hinterface => Bool.noConfusion hinterface
    · exact fun i hi => absurd hi List.not_mem_nil
    · refine fun i => iff_of_false List.not_mem_nil ?_
      rintro (⟨s, hs, -⟩ | ⟨l, hl, -⟩)
      · cases hs
      · exact List.not_mem_nil hl
    · exact List.nodup_nil
  case siblings =>
    intro k hk
    obtain rfl := hzero k hk
    refine ⟨[], rfl, List.Pairwise.nil, fun c => iff_of_false List.not_mem_nil ?_⟩
    rintro ⟨hc, hs⟩
    obtain rfl := hzero c hc
    cases hs
  case registered =>
    intro i hi
    obtain rfl := hzero i hi
    refine ⟨[], ⟨rfl, rfl⟩, fun r hr => absurd hr List.not_mem_nil, fun c hc _ hci => ?_⟩
    obtain rfl := hzero c hc
    exact absurd hci List.not_mem_nil

theorem Loaded.shaped (h : Loaded H) : Shaped H := by
  induction h with
  | object methods hasFinalizer => exact shaped_object methods hasFinalizer
  | load _ hd ih => exact ih.load hd

/-! ## What loading a class leaves as it is -/

section Load

variable {d : KlassDecl}

/-- Loading a class registers it with interfaces above it, and changes nothing else about
the hierarchy that it was linked into. -/
theorem Shaped.load_registers (h : Shaped H) (hd : H.Loadable d) :
    ∃ times, Registers H.count times ((H.create d).appendToSiblingList H.count) (H.load d) ∧
      ∀ i, 0 < times i → i ∈ ((H.load d).klass H.count).transitiveInterfaces := by
  have hsame := (H.create d).sameDecls_appendToSiblingList H.count
  have hdecl := hsame.declared (h.declared.create hd)
  have hcount : ((H.create d).appendToSiblingList H.count).count = H.count + 1 := hsame.count
  rw [Hierarchy.load]
  cases hclass : (((H.create d).appendToSiblingList H.count).klass H.count).isInterface with
  | true =>
    rw [processInterfaces_interface hclass (by omega)]
    exact ⟨_, Registers.refl H.count _, fun i hi => absurd hi (Nat.lt_irrefl 0)⟩
  | false =>
    obtain ⟨times, hreg⟩ := processInterfaces_registersAbove hdecl (by omega) hclass
    refine ⟨times, hreg.registers, fun i hi => ?_⟩
    obtain ⟨l, hl, hil⟩ := hreg.above i hi
    rw [hreg.registers.decls.transitive]
    exact (hdecl.transitive _ (by omega) i).mpr (Or.inr ⟨l, List.mem_reverse.mp hl, hil⟩)

theorem Shaped.sameDecls_load (h : Shaped H) (hd : H.Loadable d) :
    SameDecls (H.create d) (H.load d) := by
  obtain ⟨times, hreg, -⟩ := h.load_registers hd
  exact ((H.create d).sameDecls_appendToSiblingList H.count).trans hreg.decls

theorem Shaped.count_load (h : Shaped H) (hd : H.Loadable d) :
    (H.load d).count = H.count + 1 := (h.sameDecls_load hd).count

/-- What the classes that were there declare. -/
theorem Shaped.decl_load (h : Shaped H) (hd : H.Loadable d) {k : Nat} (hk : k < H.count) :
    ((H.load d).klass k).toKlassDecl = (H.klass k).toKlassDecl := by
  rw [(h.sameDecls_load hd).decl, klass_create_of_lt hk]

theorem Shaped.directSuper_load (h : Shaped H) (hd : H.Loadable d) {k t : Nat}
    (hk : k < H.count) : (H.load d).DirectSuper k t ↔ H.DirectSuper k t := by
  have hdecl := h.decl_load hd hk
  rw [DirectSuper, DirectSuper, congrArg KlassDecl.super hdecl,
    congrArg KlassDecl.localInterfaces hdecl]

theorem Shaped.isSubtype_load (h : Shaped H) (hd : H.Loadable d) {c t : Nat}
    (hc : c < H.count) : (H.load d).IsSubtype c t ↔ H.IsSubtype c t := by
  constructor
  · intro hsub
    induction hsub using Relation.ReflTransGen.head_induction_on with
    | refl => exact Relation.ReflTransGen.refl
    | head hdirect _ ih =>
      have hdirect' := (h.directSuper_load hd hc).mp hdirect
      exact (ih ((h.declared.directSuper_lt hc hdirect').trans hc)).head hdirect'
  · intro hsub
    induction hsub using Relation.ReflTransGen.head_induction_on with
    | refl => exact Relation.ReflTransGen.refl
    | head hdirect _ ih =>
      have hdirect' := (h.directSuper_load hd hc).mpr hdirect
      exact (ih ((h.declared.directSuper_lt hc hdirect).trans hc)).head hdirect'

/-- The implementors of what is not above the new class. -/
theorem Shaped.nofImplementors_load (h : Shaped H) (hd : H.Loadable d) {k : Nat}
    (hk : k < H.count) (hnot : ¬ (H.load d).IsSubtype H.count k) :
    ((H.load d).klass k).nofImplementors = (H.klass k).nofImplementors := by
  obtain ⟨times, hreg, habove⟩ := h.load_registers hd
  obtain ⟨regs, hregs, -⟩ := h.registered k hk
  have hlinked := (H.create d).appendToSiblingList_implementors H.count k
  have hregs' : Implementors ((H.create d).appendToSiblingList H.count) k regs := by
    rw [Implementors, hlinked.1, hlinked.2, klass_create_of_lt hk]
    exact hregs
  have hnone : times k = 0 := by
    by_contra hpos
    refine hnot (((h.load hd).declared.isSubtype_iff ?_).mpr
      (Or.inr (habove k (Nat.pos_of_ne_zero hpos))))
    rw [h.count_load hd]
    exact Nat.lt_succ_self _
  have hnof := (hreg.implementors k regs hregs').1
  rw [hnone, List.replicate_zero, List.append_nil] at hnof
  rw [hnof, hregs.1]

end Load

end HotSpot.Hierarchy
