import HotSpot.Oops.HierarchyImplementors
import Mathlib

/-! # The array of transitive interfaces

`compute_transitive_interfaces` on arrays: it shares one that exists where the sizes say that
there is nothing to add, and else fills a new one of the largest size it could need. In an
acyclic hierarchy the result is the closure, without duplicates.
-/

namespace HotSpot.Hierarchy

/-- The array that is returned: one that exists already, or a new one with its elements. -/
inductive InterfaceArray
  | theEmptySystemObjArray
  | ofSuper
  | localIfs
  | new (elements : List (Option Nat))
  deriving DecidableEq, Repr

/-- A new array and the index of the next element in it. -/
structure Filling where
  result : List (Option Nat)
  index : Nat
  deriving DecidableEq, Repr

/-- An element of `append_interfaces`; there is none past the end of the array. -/
def Filling.append (st : Filling) (e : Nat) : Option Filling :=
  if some e ∈ st.result.take st.index then some st
  else if st.index < st.result.length then
    some ⟨st.result.set st.index (some e), st.index + 1⟩
  else none

def Filling.appendInterfaces (st : Filling) (ifs : List Nat) : Option Filling :=
  ifs.foldlM append st

variable (H : Hierarchy)

/-- `compute_transitive_interfaces`. The sizes are `Nat`: as an `int`, the largest size would wrap
from 2 ^ 31 interfaces on, counted with repetitions. -/
def computeTransitiveArray (super : Option Nat) (localIfs : List Nat) : Option InterfaceArray :=
  let superSize := (H.superIfs super).length
  let maxTransitiveSize := superSize +
    (localIfs.map fun l => (H.klass l).transitiveInterfaces.length).sum + localIfs.length
  if maxTransitiveSize = 0 then some .theEmptySystemObjArray
  else if maxTransitiveSize = superSize then some .ofSuper
  else if maxTransitiveSize = localIfs.length then some .localIfs
  else do
    let st : Filling := ⟨List.replicate maxTransitiveSize none, 0⟩
    let st ← st.appendInterfaces (H.superIfs super)
    let st ← localIfs.foldlM
      (fun (st : Filling) l => st.appendInterfaces (H.klass l).transitiveInterfaces) st
    let st ← st.appendInterfaces localIfs
    -- Check if duplicates were removed
    if st.index ≠ maxTransitiveSize then return .new (st.result.take st.index)
    else return .new st.result

/-- The elements of an array that is returned. -/
def elements (super : Option Nat) (localIfs : List Nat) : InterfaceArray → List (Option Nat)
  | .theEmptySystemObjArray => []
  | .ofSuper => (H.superIfs super).map some
  | .localIfs => localIfs.map some
  | .new elements => elements

variable {H}

/-! ## The arrays hold the lists -/

/-- The array that holds a list in front of null. -/
def filling (size : Nat) (list : List Nat) : Filling :=
  ⟨list.map some ++ List.replicate (size - list.length) none, list.length⟩

theorem filling_append {size e : Nat} {list : List Nat} (hsize : list.length < size) :
    (filling size list).append e =
      some (filling size (if e ∈ list then list else list ++ [e])) := by
  have htake : (filling size list).result.take (filling size list).index = list.map some := by
    rw [filling]
    exact List.take_left' (List.length_map _)
  rw [Filling.append, htake]
  simp only [List.mem_map, Option.some.injEq, exists_eq_right]
  split
  next hin => rfl
  next hout =>
    obtain ⟨rest, hrest⟩ := Nat.exists_eq_add_of_lt hsize
    have hreplicate : size - list.length = rest + 1 := by omega
    have hreplicate' : size - (list.length + 1) = rest := by omega
    rw [if_pos (by simp [filling]; omega)]
    simp [filling, hreplicate, hreplicate', List.replicate_succ]

theorem length_appendInterfaces (result ifs : List Nat) :
    (appendInterfaces result ifs).length ≤ result.length + ifs.length := by
  induction ifs generalizing result with
  | nil => exact Nat.le_refl _
  | cons e ifs ih =>
    rw [appendInterfaces, List.foldl_cons, ← appendInterfaces]
    refine (ih _).trans ?_
    split
    · simp
    · rw [List.length_append, List.length_singleton, List.length_cons]
      omega

theorem filling_appendInterfaces {size : Nat} {list ifs : List Nat}
    (hsize : list.length + ifs.length ≤ size) :
    (filling size list).appendInterfaces ifs = some (filling size (appendInterfaces list ifs)) := by
  induction ifs generalizing list with
  | nil => rfl
  | cons e ifs ih =>
    rw [List.length_cons] at hsize
    rw [Filling.appendInterfaces, List.foldlM_cons, filling_append (by omega)]
    refine ih ?_
    split
    · omega
    · rw [List.length_append, List.length_singleton]
      omega

theorem filling_foldlM {size : Nat} {list ls : List Nat}
    (hsize : list.length + (ls.map fun l => (H.klass l).transitiveInterfaces.length).sum ≤ size) :
    ls.foldlM (fun (st : Filling) l => st.appendInterfaces (H.klass l).transitiveInterfaces)
        (filling size list) =
      some (filling size
        (ls.foldl
          (fun result l => appendInterfaces result (H.klass l).transitiveInterfaces) list)) ∧
    (ls.foldl
      (fun result l => appendInterfaces result (H.klass l).transitiveInterfaces) list).length ≤
      list.length + (ls.map fun l => (H.klass l).transitiveInterfaces.length).sum := by
  induction ls generalizing list with
  | nil => exact ⟨rfl, Nat.le_refl _⟩
  | cons l ls ih =>
    rw [List.map_cons, List.sum_cons] at hsize ⊢
    have hlength := length_appendInterfaces list (H.klass l).transitiveInterfaces
    obtain ⟨hrest, hle⟩ := @ih (appendInterfaces list (H.klass l).transitiveInterfaces) (by omega)
    rw [List.foldlM_cons, filling_appendInterfaces (by omega), List.foldl_cons]
    exact ⟨hrest, by omega⟩

/-- The array that is returned has the elements of the list. -/
theorem elements_computeTransitiveArray (super : Option Nat) (localIfs : List Nat) :
    ∃ array, H.computeTransitiveArray super localIfs = some array ∧
      H.elements super localIfs array =
        (H.computeTransitiveInterfaces super localIfs).map some := by
  rw [computeTransitiveArray, computeTransitiveInterfaces]
  simp only
  rw [← superIfs]
  split
  next => exact ⟨_, rfl, rfl⟩
  next =>
    split
    next => exact ⟨_, rfl, rfl⟩
    next =>
      split
      next => exact ⟨_, rfl, rfl⟩
      next =>
        generalize hmax : (H.superIfs super).length +
          (localIfs.map fun l => (H.klass l).transitiveInterfaces.length).sum +
            localIfs.length = size
        have hsuper := length_appendInterfaces [] (H.superIfs super)
        rw [List.length_nil, Nat.zero_add] at hsuper
        obtain ⟨hfold, hle⟩ :=
          @filling_foldlM H size (appendInterfaces [] (H.superIfs super)) localIfs
          (by omega)
        have hstart : (⟨List.replicate size none, 0⟩ : Filling) = filling size [] := rfl
        simp only [Option.bind_eq_bind]
        rw [hstart, filling_appendInterfaces (by rw [List.length_nil]; omega), Option.bind_some,
          hfold, Option.bind_some, filling_appendInterfaces (by omega), Option.bind_some]
        generalize hresult : appendInterfaces (localIfs.foldl _ _) localIfs = result
        split
        next =>
          refine ⟨_, rfl, ?_⟩
          exact List.take_left' (List.length_map _)
        next hfull =>
          refine ⟨_, rfl, ?_⟩
          rw [not_not] at hfull
          have hlength : size - result.length = 0 := by
            rw [← hfull]
            exact Nat.sub_self _
          simp [elements, filling, hlength]

/-! ## The closure -/

/-- The superclass's interfaces come first. -/
theorem le_appendInterfaces (result ifs : List Nat) : result <+: appendInterfaces result ifs := by
  induction ifs generalizing result with
  | nil => exact List.prefix_refl _
  | cons e ifs ih =>
    rw [appendInterfaces, List.foldl_cons, ← appendInterfaces]
    refine List.IsPrefix.trans ?_ (ih _)
    split
    · exact List.prefix_refl _
    · exact List.prefix_append _ _

theorem appendInterfaces_of_nodup {result ifs : List Nat} (hnodup : (result ++ ifs).Nodup) :
    appendInterfaces result ifs = result ++ ifs := by
  induction ifs generalizing result with
  | nil => exact (List.append_nil _).symm
  | cons e ifs ih =>
    have hout : e ∉ result := fun he =>
      (List.nodup_append.mp hnodup).2.2 e he e List.mem_cons_self rfl
    rw [List.append_cons] at hnodup
    rw [appendInterfaces, List.foldl_cons, ← appendInterfaces, if_neg hout, ih hnodup]
    exact (List.append_cons result e ifs).symm

theorem le_foldl_appendInterfaces (result ls : List Nat) :
    result <+: ls.foldl
      (fun result l => appendInterfaces result (H.klass l).transitiveInterfaces) result := by
  induction ls generalizing result with
  | nil => exact List.prefix_refl _
  | cons l ls ih => exact (le_appendInterfaces _ _).trans (ih _)

theorem superIfs_le {super : Option Nat} (localIfs : List Nat)
    (hsuper : (H.superIfs super).Nodup) :
    H.superIfs super <+: H.computeTransitiveInterfaces super localIfs := by
  rw [computeTransitiveInterfaces]
  simp only
  rw [← superIfs]
  split
  next hzero =>
    have hnil : H.superIfs super = [] := List.length_eq_zero_iff.mp (by omega)
    rw [hnil]
  next =>
    split
    next => exact List.prefix_refl _
    next =>
      split
      next hsize =>
        have hnil : H.superIfs super = [] := List.length_eq_zero_iff.mp (by omega)
        rw [hnil]
        exact List.nil_prefix
      next =>
        have hcopy := @appendInterfaces_of_nodup [] (H.superIfs super) hsuper
        rw [hcopy, List.nil_append]
        exact (le_foldl_appendInterfaces _ _).trans (le_appendInterfaces _ _)

variable (H)

/-- What the parser hands over is closed, and the interfaces of a class were computed when it was
parsed. -/
structure Computed : Prop where
  acyclic : ∀ k < H.count, ¬ Relation.TransGen H.DirectSuper k k
  closed : ∀ k < H.count, ∀ t, H.DirectSuper k t → t < H.count
  nodup : ∀ k < H.count, (H.klass k).localInterfaces.Nodup
  transitive : ∀ k < H.count, ∃ array,
    H.computeTransitiveArray (H.klass k).super (H.klass k).localInterfaces = some array ∧
      (H.klass k).transitiveInterfaces.map some =
        H.elements (H.klass k).super (H.klass k).localInterfaces array

/-- The interfaces that are reachable through a superclass and local interfaces. -/
def ReachableInterface (super : Option Nat) (localIfs : List Nat) (i : Nat) : Prop :=
  i ∈ localIfs ∨ ∃ c, (super = some c ∨ c ∈ localIfs) ∧
    ∃ t, H.IsSubtype c t ∧ i ∈ (H.klass t).localInterfaces

variable {H}

theorem Computed.transitiveInterfaces_eq (h : H.Computed) {k : Nat} (hk : k < H.count) :
    (H.klass k).transitiveInterfaces =
      H.computeTransitiveInterfaces (H.klass k).super (H.klass k).localInterfaces := by
  obtain ⟨array, harray, helements⟩ := h.transitive k hk
  obtain ⟨array', harray', helements'⟩ :=
    elements_computeTransitiveArray (H := H) (H.klass k).super (H.klass k).localInterfaces
  obtain rfl := Option.some.inj (harray.symm.trans harray')
  rw [helements'] at helements
  exact List.map_injective_iff.mpr (Option.some_injective _) helements

/-- The supertypes of a class in a finite hierarchy without cycles come before it. -/
theorem Computed.induction (h : H.Computed) {motive : Nat → Prop}
    (hstep : ∀ k < H.count, (∀ t, H.DirectSuper k t → motive t) → motive k) :
    ∀ k < H.count, motive k := by
  let below : Fin H.count → Fin H.count → Prop := fun t k => Relation.TransGen H.DirectSuper k t
  have htrans : IsTrans (Fin H.count) below := ⟨fun _ _ _ hab hbc => hbc.trans hab⟩
  have hirrefl : Std.Irrefl below := ⟨fun k => h.acyclic k k.2⟩
  have hwf : WellFounded below := Finite.wellFounded_of_trans_of_irrefl below
  suffices hall : ∀ k : Fin H.count, motive k from fun k hk => hall ⟨k, hk⟩
  intro k
  induction k using hwf.induction with
  | _ k ih =>
    refine hstep k k.2 fun t ht => ?_
    exact ih ⟨t, h.closed k k.2 t ht⟩ (Relation.TransGen.single ht)

theorem Computed.transitiveInterfaces_nodup (h : H.Computed) :
    ∀ k < H.count, (H.klass k).transitiveInterfaces.Nodup := by
  refine h.induction fun k hk ih => ?_
  rw [h.transitiveInterfaces_eq hk]
  refine nodup_computeTransitiveInterfaces ?_ (h.nodup k hk)
  cases hsuper : (H.klass k).super with
  | none => exact List.nodup_nil
  | some s => exact ih s (Or.inl hsuper)

/-- The interfaces of a class are the ones that it or a supertype declares. -/
theorem Computed.mem_transitiveInterfaces (h : H.Computed) {i : Nat} : ∀ k < H.count,
    (i ∈ (H.klass k).transitiveInterfaces ↔
      ∃ t, H.IsSubtype k t ∧ i ∈ (H.klass t).localInterfaces) := by
  refine h.induction fun k hk ih => ?_
  rw [h.transitiveInterfaces_eq hk, mem_computeTransitiveInterfaces]
  constructor
  · rintro (⟨s, hs, hi⟩ | ⟨l, hl, rfl | hi⟩)
    · obtain ⟨t, ht, hi⟩ := (ih s (Or.inl hs)).mp hi
      exact ⟨t, Relation.ReflTransGen.head (Or.inl hs) ht, hi⟩
    · exact ⟨k, Relation.ReflTransGen.refl, hl⟩
    · obtain ⟨t, ht, hi⟩ := (ih l (Or.inr hl)).mp hi
      exact ⟨t, Relation.ReflTransGen.head (Or.inr hl) ht, hi⟩
  · rintro ⟨t, ht, hi⟩
    rcases Relation.ReflTransGen.cases_head ht with rfl | ⟨c, hc, ht⟩
    · exact Or.inr ⟨i, hi, Or.inl rfl⟩
    · have hin := (ih c hc).mpr ⟨t, ht, hi⟩
      rcases hc with hs | hl
      · exact Or.inl ⟨c, hs, hin⟩
      · exact Or.inr ⟨c, hl, Or.inr hin⟩

/-! ## Loading -/

theorem computeTransitiveInterfaces_congr {H' : Hierarchy} {super : Option Nat}
    {localIfs : List Nat}
    (hsuper : ∀ s, super = some s →
      (H'.klass s).transitiveInterfaces = (H.klass s).transitiveInterfaces)
    (hlocal : ∀ l ∈ localIfs,
      (H'.klass l).transitiveInterfaces = (H.klass l).transitiveInterfaces) :
    H'.computeTransitiveInterfaces super localIfs =
      H.computeTransitiveInterfaces super localIfs := by
  have hsuperIfs : H'.superIfs super = H.superIfs super := by
    cases super with
    | none => rfl
    | some s => exact hsuper s rfl
  have hsizes : (localIfs.map fun l => (H'.klass l).transitiveInterfaces.length) =
      localIfs.map fun l => (H.klass l).transitiveInterfaces.length :=
    List.map_congr_left fun l hl => congrArg List.length (hlocal l hl)
  have hfold : ∀ result : List Nat, localIfs.foldl
      (fun result l => appendInterfaces result (H'.klass l).transitiveInterfaces) result =
      localIfs.foldl
        (fun result l => appendInterfaces result (H.klass l).transitiveInterfaces) result := by
    refine fun result => List.foldl_ext _ _ result fun result l hl => ?_
    rw [hlocal l hl]
  rw [computeTransitiveInterfaces, computeTransitiveInterfaces]
  simp only
  rw [← superIfs, ← superIfs, hsuperIfs, hsizes, hfold]

/-- What the parser computed for a class is what it would compute now. -/
structure Recorded (H : Hierarchy) : Prop where
  nodup : ∀ k < H.count, (H.klass k).localInterfaces.Nodup
  transitive : ∀ k < H.count, (H.klass k).transitiveInterfaces =
    H.computeTransitiveInterfaces (H.klass k).super (H.klass k).localInterfaces

theorem SameDecls.recorded {H' : Hierarchy} (h : SameDecls H H') (hrec : Recorded H) :
    Recorded H' where
  nodup k hk := by
    rw [h.localInterfaces]
    exact hrec.nodup k (h.count ▸ hk)
  transitive k hk := by
    rw [h.transitive, h.super, h.localInterfaces, hrec.transitive k (h.count ▸ hk)]
    exact (computeTransitiveInterfaces_congr (fun s _ => h.transitive s)
      fun l _ => h.transitive l).symm

theorem Recorded.create (h : Recorded H) (hdecl : Declared H) {d : KlassDecl}
    (hd : H.Loadable d) : Recorded (H.create d) := by
  have hold : ∀ k < H.count, (H.create d).klass k = H.klass k := fun k hk => klass_create_of_lt hk
  have hcases : ∀ k < (H.create d).count, k < H.count ∨ k = H.count := fun k hk =>
    Nat.lt_succ_iff_lt_or_eq.mp hk
  constructor
  case nodup =>
    intro k hk
    rcases hcases k hk with hk | rfl
    · rw [hold k hk]
      exact h.nodup k hk
    · rw [klass_create_self]
      exact hd.nodup
  case transitive =>
    intro k hk
    rcases hcases k hk with hk | rfl
    · rw [hold k hk, h.transitive k hk]
      refine (computeTransitiveInterfaces_congr (fun s hs => ?_) fun l hl => ?_).symm
      · rw [hold s ((hdecl.super_lt hk hs).1.trans hk)]
      · rw [hold l ((hdecl.locals k hk l hl).1.trans hk)]
    · rw [klass_create_self]
      refine (computeTransitiveInterfaces_congr (fun s hs => ?_) fun l hl => ?_).symm
      · obtain ⟨s', hs', hsuper, -⟩ := hd.super
        obtain rfl := Option.some.inj (hsuper.symm.trans hs)
        rw [hold s' hs']
      · rw [hold l (hd.localInterfaces l hl).1]

theorem Loaded.recorded (h : Loaded H) : Recorded H := by
  induction h with
  | object methods hasFinalizer =>
    have hzero : ∀ k < (Hierarchy.object methods hasFinalizer).count, k = 0 := fun k hk =>
      Nat.lt_one_iff.mp hk
    constructor
    all_goals
      intro k hk
      obtain rfl := hzero k hk
    · exact List.nodup_nil
    · rfl
  | load hloaded hd ih =>
    exact (hloaded.shaped.sameDecls_load hd).recorded (ih.create hloaded.shaped.declared hd)

/-- Loading classes one by one gives a hierarchy without cycles. -/
theorem Loaded.computed (h : Loaded H) : H.Computed := by
  have hdecl := h.shaped.declared
  have hbelow : ∀ k < H.count, ∀ t, Relation.TransGen H.DirectSuper k t → t < k := by
    intro k hk t ht
    induction ht with
    | single ht => exact hdecl.directSuper_lt hk ht
    | tail _ ht ih => exact (hdecl.directSuper_lt (ih.trans hk) ht).trans ih
  constructor
  case acyclic => exact fun k hk hcycle => absurd (hbelow k hk k hcycle) (Nat.lt_irrefl k)
  case closed => exact fun k hk t ht => (hdecl.directSuper_lt hk ht).trans hk
  case nodup => exact h.recorded.nodup
  case transitive =>
    intro k hk
    obtain ⟨array, harray, helements⟩ :=
      elements_computeTransitiveArray (H := H) (H.klass k).super (H.klass k).localInterfaces
    exact ⟨array, harray, by rw [helements, h.recorded.transitive k hk]⟩

/-! ## A new class -/

/-- The array of a new class has the interfaces that are reachable, each once, and the ones of the
superclass come first. -/
theorem computeTransitiveArray_closure (h : H.Computed) {super : Option Nat}
    {localIfs : List Nat} (hsuper : ∀ s, super = some s → s < H.count)
    (hlocal : ∀ l ∈ localIfs, l < H.count) (hnodup : localIfs.Nodup) :
    ∃ array ifs, H.computeTransitiveArray super localIfs = some array ∧
      H.elements super localIfs array = ifs.map some ∧ ifs.Nodup ∧
      (∀ i, i ∈ ifs ↔ H.ReachableInterface super localIfs i) ∧
      H.superIfs super <+: ifs := by
  obtain ⟨array, harray, helements⟩ := elements_computeTransitiveArray (H := H) super localIfs
  have hsuperNodup : (H.superIfs super).Nodup := by
    cases super with
    | none => exact List.nodup_nil
    | some s => exact h.transitiveInterfaces_nodup s (hsuper s rfl)
  refine ⟨array, _, harray, helements, nodup_computeTransitiveInterfaces hsuperNodup hnodup,
    fun i => ?_, superIfs_le localIfs hsuperNodup⟩
  rw [mem_computeTransitiveInterfaces, ReachableInterface]
  constructor
  · rintro (⟨s, hs, hi⟩ | ⟨l, hl, rfl | hi⟩)
    · exact Or.inr ⟨s, Or.inl hs, (h.mem_transitiveInterfaces s (hsuper s hs)).mp hi⟩
    · exact Or.inl hl
    · exact Or.inr ⟨l, Or.inr hl, (h.mem_transitiveInterfaces l (hlocal l hl)).mp hi⟩
  · rintro (hi | ⟨c, hs | hl, hi⟩)
    · exact Or.inr ⟨i, hi, Or.inl rfl⟩
    · exact Or.inl ⟨c, hs, (h.mem_transitiveInterfaces c (hsuper c hs)).mpr hi⟩
    · exact Or.inr ⟨c, hl, Or.inr ((h.mem_transitiveInterfaces c (hlocal c hl)).mpr hi)⟩

/-- Two interfaces with the same superinterface, and a class that implements one of them. -/
def diamond : Hierarchy :=
  ((((object [] false).load ⟨some 0, true, true, false, [], []⟩).load
    ⟨some 0, true, true, false, [], [1]⟩).load ⟨some 0, true, true, false, [], [1]⟩).load
      ⟨some 0, false, false, false, [], [2]⟩

theorem loaded_diamond : Loaded diamond := by
  refine .load (.load (.load (.load (.object [] false) ?_) ?_) ?_) ?_
  all_goals exact ⟨⟨0, by decide, rfl, rfl⟩, by decide, by decide, by simp⟩

theorem computeTransitiveArray_diamond : ∃ array ifs,
    diamond.computeTransitiveArray (some 4) [3, 2] = some array ∧
      diamond.elements (some 4) [3, 2] array = ifs.map some ∧ ifs.Nodup ∧
      (∀ i, i ∈ ifs ↔ diamond.ReachableInterface (some 4) [3, 2] i) ∧
      diamond.superIfs (some 4) <+: ifs :=
  computeTransitiveArray_closure loaded_diamond.computed (by rintro _ ⟨⟩; decide) (by decide)
    (by decide)

/-- The duplicates are left out of the array. -/
example : diamond.computeTransitiveArray (some 4) [3, 2] =
    some (.new [some 1, some 2, some 3]) := by
  decide

end HotSpot.Hierarchy
