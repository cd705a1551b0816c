import Mathlib.Tactic.Ring
import HotSpot.Code.Dependencies
import HotSpot.Oops.HierarchyImplementors

/-! # Walking the hierarchy

What the search below a context type comes across. A walk is read through the siblings
it still has in front of it: those after its place in the current chain, and those of the
chains on its list.
-/

namespace HotSpot

open ClassFileParser

variable {H : Hierarchy}

/-! ## Pending siblings -/

/-- The siblings from a place in a chain on. -/
structure Hierarchy.SiblingsFrom (H : Hierarchy) (cursor : Option Nat) (l : List Nat) : Prop where
  segment : LinkedSegment (fun c => (H.klass c).nextSibling) cursor l none
  sorted : l.Pairwise (· > ·)
  lt : ∀ c ∈ l, c < H.count

namespace Hierarchy

theorem SiblingsFrom.nil : H.SiblingsFrom none [] where
  segment := rfl
  sorted := List.Pairwise.nil
  lt := fun _ hc => absurd hc List.not_mem_nil

theorem SiblingsFrom.none_eq {l : List Nat} (h : H.SiblingsFrom none l) : l = [] := by
  cases l with
  | nil => rfl
  | cons c l => exact absurd h.segment.1 (by simp)

theorem SiblingsFrom.some_eq {k : Nat} {l : List Nat} (h : H.SiblingsFrom (some k) l) :
    ∃ rest, l = k :: rest ∧ k < H.count ∧ H.SiblingsFrom (H.klass k).nextSibling rest := by
  cases l with
  | nil => exact absurd h.segment (by simp)
  | cons c rest =>
    obtain ⟨hc, hsegment⟩ := h.segment
    obtain rfl := Option.some.inj hc
    obtain ⟨-, hsorted⟩ := List.pairwise_cons.mp h.sorted
    exact ⟨rest, rfl, h.lt k List.mem_cons_self, hsegment, hsorted,
      fun c hc => h.lt c (List.mem_cons_of_mem k hc)⟩

/-- The siblings of the chains on a list. -/
def SiblingsOf (H : Hierarchy) (chains : List Nat) (ls : List (List Nat)) : Prop :=
  List.Forall₂ (fun chain l => H.SiblingsFrom (some chain) l) chains ls

/-- The steps that are left for the classes of a chain and what is below them. -/
def weight (H : Hierarchy) (l : List Nat) : Nat := (l.map fun c => 2 ^ (H.count - c)).sum

def weights (H : Hierarchy) (ls : List (List Nat)) : Nat := (ls.map fun l => H.weight l + 1).sum

@[simp] theorem weight_nil : H.weight [] = 0 := rfl

@[simp] theorem weight_cons (c : Nat) (l : List Nat) :
    H.weight (c :: l) = 2 ^ (H.count - c) + H.weight l := rfl

@[simp] theorem weights_nil : H.weights [] = 0 := rfl

@[simp] theorem weights_cons (l : List Nat) (ls : List (List Nat)) :
    H.weights (l :: ls) = H.weight l + 1 + H.weights ls := rfl

theorem weight_sorted {n b : Nat} {l : List Nat} (hb : n < b) (hbound : b ≤ H.count)
    (hsorted : l.Pairwise (· > ·)) (hl : ∀ c ∈ l, n < c ∧ c < b) :
    H.weight l + 2 ^ (H.count - b + 1) ≤ 2 ^ (H.count - n) := by
  induction l generalizing b with
  | nil =>
    rw [weight_nil, Nat.zero_add]
    exact Nat.pow_le_pow_right (by omega) (by omega)
  | cons c l ih =>
    obtain ⟨hlt, hsorted⟩ := List.pairwise_cons.mp hsorted
    obtain ⟨hnc, hcb⟩ := hl c List.mem_cons_self
    have hrest := ih hnc (by omega) hsorted fun c' hc' =>
      ⟨(hl c' (List.mem_cons_of_mem c hc')).1, hlt c' hc'⟩
    have hstep : 2 ^ (H.count - b + 1) ≤ 2 ^ (H.count - c) :=
      Nat.pow_le_pow_right (by omega) (by omega)
    rw [weight_cons]
    rw [Nat.pow_succ] at hrest
    omega

namespace Shaped

variable (h : Shaped H)

include h

/-- The subclasses of a class, of which there are few compared to the class itself. -/
theorem subclasses {k : Nat} (hk : k < H.count) : ∃ l, H.SiblingsFrom (H.klass k).subklass l ∧
    (∀ c, c ∈ l ↔ c < H.count ∧ (H.klass c).super = some k) ∧
      H.weight l + 2 ≤ 2 ^ (H.count - k) := by
  obtain ⟨l, hsegment, hsorted, hmem⟩ := h.siblings k hk
  refine ⟨l, ⟨hsegment, hsorted, fun c hc => ((hmem c).mp hc).1⟩, hmem, ?_⟩
  have hweight := weight_sorted (H := H) hk (Nat.le_refl _) hsorted fun c hc => by
    obtain ⟨hc, hsuper⟩ := (hmem c).mp hc
    exact ⟨(h.declared.super_lt hc hsuper).1, hc⟩
  simpa using hweight

/-- Putting the subclasses of a class on the list. -/
theorem siblingsOf_addSubclassChain {k : Nat} (hk : k < H.count) {chains : List Nat}
    {ls : List (List Nat)} (hchains : H.SiblingsOf chains ls) :
    ∃ ls', H.SiblingsOf (ClassHierarchyWalker.addSubclassChain H k chains) ls' ∧
      (∀ c, (∃ l ∈ ls', c ∈ l) ↔
        (c < H.count ∧ (H.klass c).super = some k) ∨ ∃ l ∈ ls, c ∈ l) ∧
      H.weights ls' + 1 ≤ H.weights ls + 2 ^ (H.count - k) := by
  obtain ⟨l, hl, hmem, hweight⟩ := h.subclasses hk
  rw [ClassHierarchyWalker.addSubclassChain]
  cases hsub : (H.klass k).subklass with
  | none =>
    rw [hsub] at hl
    obtain rfl := hl.none_eq
    refine ⟨ls, hchains, fun c => ?_, ?_⟩
    · rw [← hmem c]
      simp
    · have := Nat.one_le_two_pow (n := H.count - k)
      omega
  | some sub =>
    rw [hsub] at hl
    refine ⟨l :: ls, List.Forall₂.cons hl hchains, fun c => ?_, ?_⟩
    · rw [← hmem c]
      simp
    · rw [weights_cons]
      omega

theorem nofImplementors_class {k : Nat} (hk : k < H.count)
    (hclass : (H.klass k).isInterface = false) : (H.klass k).nofImplementors = 0 := by
  obtain ⟨regs, ⟨hnof, -⟩, habove, -⟩ := h.registered k hk
  rw [hnof, List.length_eq_zero_iff]
  refine List.eq_nil_iff_forall_not_mem.mpr fun r hr => ?_
  obtain ⟨hr, -, hkr⟩ := habove r hr
  rw [(h.declared.transitive_lt hr hkr).2] at hclass
  cases hclass

theorem subklass_interface {k : Nat} (hk : k < H.count)
    (hinterface : (H.klass k).isInterface = true) : (H.klass k).subklass = none := by
  obtain ⟨l, hl, hmem, -⟩ := h.subclasses hk
  cases hsub : (H.klass k).subklass with
  | none => rfl
  | some sub =>
    rw [hsub] at hl
    obtain ⟨rest, rfl, -⟩ := hl.some_eq
    obtain ⟨hlt, hsuper⟩ := (hmem sub).mp List.mem_cons_self
    rw [(h.declared.super_lt hlt hsuper).2] at hinterface
    cases hinterface

/-- An interface with a single implementor remembers it, and all that implement it are
below that one. -/
theorem implementors_one {k : Nat} (hk : k < H.count) (hnof : (H.klass k).nofImplementors = 1) :
    ∃ r, (H.klass k).implementors = [r] ∧ k < r ∧ r < H.count ∧ (H.klass r).isInterface = false ∧
      k ∈ (H.klass r).transitiveInterfaces ∧
      ∀ c < H.count, (H.klass c).isInterface = false → k ∈ (H.klass c).transitiveInterfaces →
        H.IsSubclass c r := by
  obtain ⟨regs, ⟨hlength, hlist⟩, habove, hall⟩ := h.registered k hk
  rw [hnof] at hlength
  obtain ⟨r, rfl⟩ := List.length_eq_one_iff.mp hlength.symm
  obtain ⟨hr, hclass, hkr⟩ := habove r List.mem_cons_self
  refine ⟨r, by rw [hlist]; rfl, (h.declared.transitive_lt hr hkr).1, hr, hclass, hkr,
    fun c hc hcclass hkc => ?_⟩
  obtain ⟨r', hr', hsub⟩ := hall c hc hcclass hkc
  rwa [List.mem_singleton.mp hr'] at hsub

end Shaped

end Hierarchy

namespace ClassHierarchyWalker

variable {w w' w'' : ClassHierarchyWalker} {hide : Bool}

/-! ## Tests -/

/-- The methods that the walker has remembered are the ones of its participants. -/
def Recorded (H : Hierarchy) (w : ClassHierarchyWalker) : Prop :=
  ∀ name signature, w.descriptor = some (name, signature) →
    ∀ i, w.foundMethods i = w.participants[i]?.bind fun k => H.findMethod k name signature

/-- Witnesses have become participants, and nothing else has changed. -/
structure Grows (H : Hierarchy) (w w' : ClassHierarchyWalker) : Prop where
  descriptor : w'.descriptor = w.descriptor
  participants : ∃ new, w'.participants = w.participants ++ new ∧
    new.length + w'.recordWitnesses = w.recordWitnesses ∧ ∀ k ∈ new, w.isWitness H k = true
  recorded : w.Recorded H → w'.Recorded H

namespace Grows

theorem refl (H : Hierarchy) (w : ClassHierarchyWalker) : Grows H w w :=
  ⟨rfl, ⟨[], by simp, by simp, by simp⟩, id⟩

theorem isWitness (h : Grows H w w') (k : Nat) : w'.isWitness H k = w.isWitness H k := by
  rw [ClassHierarchyWalker.isWitness, ClassHierarchyWalker.isWitness, h.descriptor]

theorem trans (h : Grows H w w') (h' : Grows H w' w'') : Grows H w w'' := by
  obtain ⟨new, hparticipants, hlength, hnew⟩ := h.participants
  obtain ⟨new', hparticipants', hlength', hnew'⟩ := h'.participants
  refine ⟨h'.descriptor.trans h.descriptor, ⟨new ++ new', ?_, ?_, fun k hk => ?_⟩,
    fun hw => h'.recorded (h.recorded hw)⟩
  · rw [hparticipants', hparticipants, List.append_assoc]
  · rw [List.length_append]
    omega
  · rcases List.mem_append.mp hk with hk | hk
    · exact hnew k hk
    · rw [← h.isWitness k]
      exact hnew' k hk

theorem subset (h : Grows H w w') {k : Nat} (hk : k ∈ w.participants) : k ∈ w'.participants := by
  obtain ⟨new, hparticipants, -⟩ := h.participants
  rw [hparticipants]
  exact List.mem_append_left _ hk

/-- A walker that records nothing keeps its participants. -/
theorem participants_eq (h : Grows H w w') (hrecord : w.recordWitnesses = 0) :
    w'.participants = w.participants ∧ w'.recordWitnesses = 0 := by
  obtain ⟨new, hparticipants, hlength, -⟩ := h.participants
  have hnil : new = [] := List.length_eq_zero_iff.mp (by omega)
  rw [hparticipants, hnil, List.append_nil]
  exact ⟨rfl, by omega⟩

end Grows

theorem grows_record {k : Nat} (hwitness : w.isWitness H k = true)
    (hrecord : w.recordWitnesses ≠ 0) :
    Grows H w ((w.memoize H k).ignoreWitness k).2 ∧
      k ∈ ((w.memoize H k).ignoreWitness k).2.participants := by
  have hsame : (w.memoize H k).recordWitnesses = w.recordWitnesses ∧
      (w.memoize H k).participants = w.participants ∧
      (w.memoize H k).descriptor = w.descriptor := by
    rw [memoize]
    split <;> exact ⟨rfl, rfl, rfl⟩
  rw [ignoreWitness, if_neg (by rw [hsame.1]; exact hrecord)]
  refine ⟨⟨?_, ⟨[k], ?_, ?_, fun k' hk' => ?_⟩, fun hw name signature hdescriptor i => ?_⟩, ?_⟩
  · exact hsame.2.2
  · change (w.memoize H k).participants ++ [k] = _
    rw [hsame.2.1]
  · change 1 + ((w.memoize H k).recordWitnesses - 1) = _
    rw [hsame.1]
    omega
  · rw [List.mem_singleton.mp hk']
    exact hwitness
  · have hdescriptor' : w.descriptor = some (name, signature) := hsame.2.2.symm.trans hdescriptor
    have hfound := hw name signature hdescriptor'
    simp only [memoize, hdescriptor', addParticipant]
    rcases Nat.lt_trichotomy i w.participants.length with hlt | rfl | hgt
    · rw [Function.update_of_ne (by omega), Function.update_of_ne (by omega), hfound,
        List.getElem?_append_left hlt]
    · rw [Function.update_of_ne (by omega), Function.update_self]
      simp
    · rw [List.getElem?_eq_none (by simp; omega)]
      by_cases hi : i = w.participants.length + 1
      · rw [hi, Function.update_self]
        rfl
      · rw [Function.update_of_ne hi, Function.update_of_ne (by omega), hfound,
          List.getElem?_eq_none (by omega)]
  · change k ∈ (w.memoize H k).participants ++ [k]
    exact List.mem_append_right _ (List.mem_singleton_self k)

/-- What a test says of the class that was tested. -/
def Tested (H : Hierarchy) (hide : Bool) (w : ClassHierarchyWalker) (k : Nat) (finding : Finding)
    (w' : ClassHierarchyWalker) : Prop :=
  match finding with
  | .hidden => w' = w ∧ hide = true ∧ k ∈ w.participants
  | .search => Grows H w w' ∧ ¬ (hide = true ∧ k ∈ w.participants) ∧
      (w.isWitness H k = true → k ∈ w'.participants)
  | .witness => w.recordWitnesses = 0 ∧ k ∉ w.participants ∧ w.isWitness H k = true

theorem test_spec (H : Hierarchy) (hide : Bool) (w : ClassHierarchyWalker) (k : Nat) :
    Tested H hide w k (w.test H hide k).1 (w.test H hide k).2 := by
  rw [test]
  split
  next hk =>
    cases hide with
    | true => exact ⟨rfl, rfl, hk⟩
    | false => exact ⟨Grows.refl H w, by simp, fun _ => hk⟩
  next hk =>
    split
    next hwitness =>
      by_cases hrecord : w.recordWitnesses = 0
      · have hsame : (w.memoize H k).recordWitnesses = 0 := by
          rw [memoize]
          split <;> exact hrecord
        simp only [ignoreWitness, hsame, if_true]
        exact ⟨hrecord, hk, hwitness⟩
      · have hsame : (w.memoize H k).recordWitnesses ≠ 0 := by
          rw [memoize]
          split <;> exact hrecord
        have hignored : ((w.memoize H k).ignoreWitness k).1 = true := by
          rw [ignoreWitness, if_neg hsame]
        obtain ⟨hgrows, hmem⟩ := grows_record hwitness hrecord
        simp only [hignored, if_true]
        exact ⟨hgrows, fun hhide => hk hhide.2, fun _ => hmem⟩
    next hwitness => exact ⟨Grows.refl H w, fun hhide => hk hhide.2, fun h => absurd h hwitness⟩

/-! ## What is below -/

/-- Down from a class to another without going below a participant, if these hide what
is below them. -/
def Reaches (H : Hierarchy) (hide : Bool) (participants : List Nat) (k j : Nat) : Prop :=
  Relation.ReflTransGen (fun a b => b < H.count ∧ (H.klass b).super = some a ∧
    ¬ (hide = true ∧ a ∈ participants)) k j

theorem Reaches.weaken {participants participants' : List Nat} {k j : Nat}
    (hsub : ∀ p ∈ participants, p ∈ participants') (h : Reaches H hide participants' k j) :
    Reaches H hide participants k j :=
  Relation.ReflTransGen.mono (fun a _ hstep =>
    ⟨hstep.1, hstep.2.1, fun hhide => hstep.2.2 ⟨hhide.1, hsub a hhide.2⟩⟩) k j h

/-- What a search has come across when it has gone over a class and all that is below. -/
def Covered (H : Hierarchy) (hide : Bool) (w : ClassHierarchyWalker) (k : Nat) : Prop :=
  ∀ j, Reaches H hide w.participants k j → w.isWitness H j = true → j ∈ w.participants

theorem Covered.mono {k : Nat} (h : Covered H hide w k) (hgrows : Grows H w w') :
    Covered H hide w' k := by
  intro j hreaches hwitness
  rw [hgrows.isWitness] at hwitness
  exact hgrows.subset (h j (hreaches.weaken fun p hp => hgrows.subset hp) hwitness)

/-- A class is covered when it is no witness, or a participant, and its subclasses are. -/
theorem covered_of_subclasses {k : Nat}
    (hk : w.isWitness H k = true → k ∈ w.participants)
    (hbelow : ¬ (hide = true ∧ k ∈ w.participants) →
      ∀ c, c < H.count → (H.klass c).super = some k → Covered H hide w c) :
    Covered H hide w k := by
  intro j hreaches hwitness
  rcases Relation.ReflTransGen.cases_head hreaches with rfl | ⟨c, ⟨hc, hsuper, hopen⟩, hcj⟩
  · exact hk hwitness
  · exact hbelow hopen c hc hsuper j hcj hwitness

theorem covered_of_hidden {k : Nat} (hhide : hide = true) (hk : k ∈ w.participants) :
    Covered H hide w k :=
  covered_of_subclasses (fun _ => hk) fun hopen => absurd ⟨hhide, hk⟩ hopen

theorem covered_of_search {k : Nat} (hgrows : Grows H w w') (hgrows' : Grows H w' w'')
    (hk : w.isWitness H k = true → k ∈ w'.participants)
    (hbelow : ∀ c, c < H.count → (H.klass c).super = some k → Covered H hide w'' c) :
    Covered H hide w'' k := by
  refine covered_of_subclasses (fun hwitness => ?_) fun _ => hbelow
  rw [hgrows'.isWitness, hgrows.isWitness] at hwitness
  exact hgrows'.subset (hk hwitness)

/-! ## A search that finds no witness -/

/-- A way to work off a list of chains covers them when it finds no witness. -/
def CoversChains (H : Hierarchy) (hide : Bool)
    (walk : ClassHierarchyWalker → Option Nat → List Nat →
      Option (Option Nat × ClassHierarchyWalker)) : Prop :=
  ∀ w chains ls w', H.SiblingsOf chains ls → walk w none chains = some (none, w') →
    Grows H w w' ∧ ∀ l ∈ ls, ∀ k ∈ l, Covered H hide w' k

theorem searchBelow_none {walk : ClassHierarchyWalker → Option Nat → List Nat →
      Option (Option Nat × ClassHierarchyWalker)} (hwalk : CoversChains H hide walk)
    (h : H.Shaped) {context : Nat} (hcontext : context < H.count)
    (hrun : searchBelow H hide walk w context = some (none, w')) :
    Grows H w w' ∧ (H.klass context).nofImplementors ≤ 1 ∧
      (∀ c, c < H.count → (H.klass c).super = some context → Covered H hide w' c) ∧
      ∀ r ∈ (H.klass context).implementors, Covered H hide w' r := by
  obtain ⟨ls, hchains, hmem, -⟩ := h.siblingsOf_addSubclassChain hcontext
    (List.Forall₂.nil : H.SiblingsOf [] [])
  rw [searchBelow] at hrun
  split at hrun
  next => cases hrun
  next hnof =>
    have hle : (H.klass context).nofImplementors ≤ 1 := Nat.not_lt.mp hnof
    rcases Nat.lt_or_ge 0 (H.klass context).nofImplementors with hpos | hzero
    · have hone : (H.klass context).nofImplementors = 1 := by omega
      obtain ⟨r, himpls, -, hr, -⟩ := h.implementors_one hcontext hone
      have htested := test_spec H hide w r
      rw [hone] at hrun
      simp only [List.range_one, testImplementors, himpls, List.getElem?_cons_zero] at hrun
      rcases htest : w.test H hide r with ⟨finding, w₁⟩
      rw [htest] at htested hrun
      cases finding with
      | hidden =>
        obtain ⟨rfl, hhide, hrw⟩ := htested
        obtain ⟨hgrows, hcovered⟩ := hwalk _ _ ls w' hchains hrun
        refine ⟨hgrows, hle, fun c hc hsuper => ?_, fun r' hr' => ?_⟩
        · obtain ⟨l, hl, hcl⟩ := (hmem c).mpr (Or.inl ⟨hc, hsuper⟩)
          exact hcovered l hl c hcl
        · rw [himpls] at hr'
          rw [List.mem_singleton.mp hr']
          exact covered_of_hidden hhide (hgrows.subset hrw)
      | search =>
        obtain ⟨hgrows₁, -, hwitness⟩ := htested
        obtain ⟨ls', hchains', hmem', -⟩ := h.siblingsOf_addSubclassChain hr hchains
        obtain ⟨hgrows, hcovered⟩ := hwalk _ _ ls' w' hchains' hrun
        refine ⟨hgrows₁.trans hgrows, hle, fun c hc hsuper => ?_, fun r' hr' => ?_⟩
        · obtain ⟨l, hl, hcl⟩ := (hmem' c).mpr (Or.inr ((hmem c).mpr (Or.inl ⟨hc, hsuper⟩)))
          exact hcovered l hl c hcl
        · rw [himpls] at hr'
          rw [List.mem_singleton.mp hr']
          refine covered_of_search hgrows₁ hgrows hwitness fun c hc hsuper => ?_
          obtain ⟨l, hl, hcl⟩ := (hmem' c).mpr (Or.inl ⟨hc, hsuper⟩)
          exact hcovered l hl c hcl
      | witness => cases hrun
    · have hnone : (H.klass context).nofImplementors = 0 := Nat.le_zero.mp hzero
      rw [hnone] at hrun
      simp only [List.range_zero, testImplementors] at hrun
      obtain ⟨hgrows, hcovered⟩ := hwalk _ _ ls w' hchains hrun
      refine ⟨hgrows, hle, fun c hc hsuper => ?_, fun r hr => ?_⟩
      · obtain ⟨l, hl, hcl⟩ := (hmem c).mpr (Or.inl ⟨hc, hsuper⟩)
        exact hcovered l hl c hcl
      · obtain ⟨regs, ⟨hlength, hlist⟩, -⟩ := h.registered context hcontext
        rw [hnone] at hlength
        rw [hlist, List.length_eq_zero_iff.mp hlength.symm] at hr
        exact absurd hr List.not_mem_nil

/-- A walk that finds no witness has covered what was in front of it. -/
theorem walk_none (h : H.Shaped) (chainMax : Nat) (fuel : Nat) {cursor : Option Nat}
    {chains : List Nat} {l : List Nat} {ls : List (List Nat)} (hcursor : H.SiblingsFrom cursor l)
    (hchains : H.SiblingsOf chains ls)
    (hrun : walk H hide chainMax fuel w cursor chains = some (none, w')) :
    Grows H w w' ∧ (∀ k ∈ l, Covered H hide w' k) ∧ ∀ l ∈ ls, ∀ k ∈ l, Covered H hide w' k := by
  induction fuel generalizing w cursor chains l ls w' with
  | zero => cases hrun
  | succ fuel ih =>
    have hcovers : CoversChains H hide (walk H hide chainMax fuel) := by
      intro w chains ls w' hchains hrun
      obtain ⟨hgrows, -, hcovered⟩ := ih Hierarchy.SiblingsFrom.nil hchains hrun
      exact ⟨hgrows, hcovered⟩
    cases cursor with
    | none =>
      obtain rfl := hcursor.none_eq
      cases hchains with
      | nil =>
        obtain rfl : w = w' := congrArg Prod.snd (Option.some.inj hrun)
        exact ⟨Grows.refl H w, by simp, by simp⟩
      | cons hl hls =>
        rw [walk] at hrun
        obtain ⟨hgrows, hfirst, hrest⟩ := ih hl hls hrun
        refine ⟨hgrows, by simp, fun l' hl' => ?_⟩
        rcases List.mem_cons.mp hl' with rfl | hl'
        · exact hfirst
        · exact hrest l' hl'
    | some sub =>
      obtain ⟨rest, rfl, hsub, hnext⟩ := hcursor.some_eq
      have htested := test_spec H hide w sub
      rw [walk] at hrun
      rcases htest : w.test H hide sub with ⟨finding, w₁⟩
      rw [htest] at htested hrun
      cases finding with
      | hidden =>
        obtain ⟨rfl, hhide, hmem⟩ := htested
        obtain ⟨hgrows, hrest, hls⟩ := ih hnext hchains hrun
        refine ⟨hgrows, fun k hk => ?_, hls⟩
        rcases List.mem_cons.mp hk with rfl | hk
        · exact covered_of_hidden hhide (hgrows.subset hmem)
        · exact hrest k hk
      | witness => cases hrun
      | search =>
        obtain ⟨hgrows₁, -, hwitness⟩ := htested
        simp only at hrun
        split at hrun
        next =>
          -- The subclasses go on the list.
          obtain ⟨ls', hchains', hmem', -⟩ := h.siblingsOf_addSubclassChain hsub hchains
          obtain ⟨hgrows, hrest, hls⟩ := ih hnext hchains' hrun
          refine ⟨hgrows₁.trans hgrows, fun k hk => ?_, fun l hl k hk => ?_⟩
          · rcases List.mem_cons.mp hk with rfl | hk
            · refine covered_of_search hgrows₁ hgrows hwitness fun c hc hsuper => ?_
              obtain ⟨l, hl, hcl⟩ := (hmem' c).mpr (Or.inl ⟨hc, hsuper⟩)
              exact hls l hl c hcl
            · exact hrest k hk
          · obtain ⟨l', hl', hkl'⟩ := (hmem' k).mpr (Or.inr ⟨l, hl, hk⟩)
            exact hls l' hl' k hkl'
        next =>
          -- They are searched by a call of its own.
          rcases hsearch : searchBelow H hide (walk H hide chainMax fuel) w₁ sub with
            _ | ⟨_ | witness, w₂⟩
          · rw [hsearch] at hrun
            cases hrun
          · rw [hsearch] at hrun
            obtain ⟨hgrows₂, -, hbelow, -⟩ := searchBelow_none hcovers h hsub hsearch
            obtain ⟨hgrows, hrest, hls⟩ := ih hnext hchains hrun
            refine ⟨(hgrows₁.trans hgrows₂).trans hgrows, fun k hk => ?_, hls⟩
            rcases List.mem_cons.mp hk with rfl | hk
            · exact covered_of_search hgrows₁ (hgrows₂.trans hgrows) hwitness
                fun c hc hsuper => (hbelow c hc hsuper).mono hgrows
            · exact hrest k hk
          · rw [hsearch] at hrun
            cases hrun

/-- A search that finds no witness has covered the context type and its implementor. -/
theorem findWitnessAnywhere_none (h : H.Shaped) {verify : Bool} {context : Nat}
    (hcontext : context < H.count)
    (hrun : findWitnessAnywhere H hide verify w context = some (none, w')) :
    Grows H w w' ∧ Covered H hide w' context ∧
      (hide = true ∧ context ∈ w'.participants ∨ (H.klass context).nofImplementors ≤ 1 ∧
        ∀ r ∈ (H.klass context).implementors, Covered H hide w' r) := by
  have htested := test_spec H hide w context
  rw [findWitnessAnywhere] at hrun
  rcases htest : w.test H hide context with ⟨finding, w₁⟩
  rw [htest] at htested hrun
  cases finding with
  | hidden =>
    obtain ⟨rfl, hhide, hmem⟩ := htested
    obtain rfl : w₁ = w' := congrArg Prod.snd (Option.some.inj hrun)
    exact ⟨Grows.refl H w₁, covered_of_hidden hhide hmem, Or.inl ⟨hhide, hmem⟩⟩
  | witness => cases hrun
  | search =>
    obtain ⟨hgrows₁, -, hwitness⟩ := htested
    have hcovers : CoversChains H hide (walk H hide (chainMax verify) (2 ^ (H.count + 1))) := by
      intro w chains ls w' hchains hrun
      obtain ⟨hgrows, -, hcovered⟩ :=
        walk_none h _ _ Hierarchy.SiblingsFrom.nil hchains hrun
      exact ⟨hgrows, hcovered⟩
    obtain ⟨hgrows, hnof, hbelow, himpls⟩ := searchBelow_none hcovers h hcontext hrun
    exact ⟨hgrows₁.trans hgrows, covered_of_search hgrows₁ hgrows hwitness hbelow,
      Or.inr ⟨hnof, himpls⟩⟩

/-! ## A search ends -/

theorem searchBelow_isSome (hide : Bool) {walk : ClassHierarchyWalker → Option Nat → List Nat →
      Option (Option Nat × ClassHierarchyWalker)} {steps : Nat}
    (hwalk : ∀ w chains ls, H.SiblingsOf chains ls → H.weights ls < steps →
      (walk w none chains).isSome)
    (h : H.Shaped) {context : Nat} (hcontext : context < H.count)
    (hsteps : 2 ^ (H.count - context) ≤ steps) (w : ClassHierarchyWalker) :
    (searchBelow H hide walk w context).isSome := by
  obtain ⟨ls, hchains, -, hweights⟩ := h.siblingsOf_addSubclassChain hcontext
    (List.Forall₂.nil : H.SiblingsOf [] [])
  rw [Hierarchy.weights_nil, Nat.zero_add] at hweights
  rw [searchBelow]
  split
  next => rfl
  next hnof =>
    rcases Nat.lt_or_ge 0 (H.klass context).nofImplementors with hpos | hzero
    · have hone : (H.klass context).nofImplementors = 1 := by omega
      obtain ⟨r, himpls, hlt, hr, -⟩ := h.implementors_one hcontext hone
      have hinterface : (H.klass context).isInterface = true := by
        cases hclass : (H.klass context).isInterface with
        | true => rfl
        | false =>
          rw [h.nofImplementors_class hcontext hclass] at hone
          cases hone
      -- The interface has no subclasses, and its implementor comes after it.
      have hnone : addSubclassChain H context [] = [] := by
        rw [addSubclassChain, h.subklass_interface hcontext hinterface]
        rfl
      obtain ⟨ls', hchains', -, hweights'⟩ := h.siblingsOf_addSubclassChain hr
        (List.Forall₂.nil : H.SiblingsOf [] [])
      have hpow : 2 ^ (H.count - r) ≤ 2 ^ (H.count - context) :=
        Nat.pow_le_pow_right (by omega) (by omega)
      rw [Hierarchy.weights_nil, Nat.zero_add] at hweights'
      rw [hone, hnone]
      simp only [List.range_one, testImplementors, himpls, List.getElem?_cons_zero]
      rcases w.test H hide r with ⟨_ | _ | _, w₁⟩
      · exact hwalk w₁ [] [] List.Forall₂.nil (by rw [Hierarchy.weights_nil]; omega)
      · exact hwalk w₁ _ ls' hchains' (by omega)
      · rfl
    · have hnone : (H.klass context).nofImplementors = 0 := Nat.le_zero.mp hzero
      rw [hnone]
      exact hwalk w _ ls hchains (by omega)

theorem walk_isSome (h : H.Shaped) (chainMax : Nat) {fuel : Nat} {cursor : Option Nat}
    {chains : List Nat} {l : List Nat} {ls : List (List Nat)} (hcursor : H.SiblingsFrom cursor l)
    (hchains : H.SiblingsOf chains ls) (hfuel : H.weight l + H.weights ls < fuel)
    (w : ClassHierarchyWalker) : (walk H hide chainMax fuel w cursor chains).isSome := by
  induction fuel generalizing w cursor chains l ls with
  | zero => exact absurd hfuel (Nat.not_lt_zero _)
  | succ fuel ih =>
    cases cursor with
    | none =>
      obtain rfl := hcursor.none_eq
      cases hchains with
      | nil => rfl
      | cons hl hls =>
        rw [Hierarchy.weight_nil, Hierarchy.weights_cons] at hfuel
        exact ih hl hls (by omega) w
    | some sub =>
      obtain ⟨rest, rfl, hsub, hnext⟩ := hcursor.some_eq
      have hpos := Nat.one_le_two_pow (n := H.count - sub)
      rw [Hierarchy.weight_cons] at hfuel
      rw [walk]
      rcases w.test H hide sub with ⟨_ | _ | _, w₁⟩
      · exact ih hnext hchains (by omega) w₁
      · simp only
        split
        next =>
          obtain ⟨ls', hchains', -, hweights⟩ := h.siblingsOf_addSubclassChain hsub hchains
          exact ih hnext hchains' (by omega) w₁
        next =>
          have hwalk : ∀ w chains ls, H.SiblingsOf chains ls → H.weights ls < fuel →
              (walk H hide chainMax fuel w none chains).isSome := by
            intro w chains ls hchains hweights
            refine ih Hierarchy.SiblingsFrom.nil hchains ?_ w
            rwa [Hierarchy.weight_nil, Nat.zero_add]
          have hsearch := searchBelow_isSome hide hwalk h hsub (by omega) w₁
          obtain ⟨⟨witness, w₂⟩, hsearch⟩ := Option.isSome_iff_exists.mp hsearch
          rw [hsearch]
          cases witness with
          | none => exact ih hnext hchains (by omega) w₂
          | some witness => rfl
      · rfl

theorem findWitnessAnywhere_isSome (h : H.Shaped) (hide verify : Bool) {context : Nat}
    (hcontext : context < H.count) (w : ClassHierarchyWalker) :
    (findWitnessAnywhere H hide verify w context).isSome := by
  rw [findWitnessAnywhere]
  rcases w.test H hide context with ⟨_ | _ | _, w₁⟩
  · rfl
  · have hwalk : ∀ w chains ls, H.SiblingsOf chains ls → H.weights ls < 2 ^ (H.count + 1) →
        (walk H hide (chainMax verify) (2 ^ (H.count + 1)) w none chains).isSome := by
      intro w chains ls hchains hweights
      refine walk_isSome h _ Hierarchy.SiblingsFrom.nil hchains ?_ w
      rwa [Hierarchy.weight_nil, Nat.zero_add]
    exact searchBelow_isSome hide hwalk h hcontext (Nat.pow_le_pow_right (by omega) (by omega)) w₁
  · rfl

/-! ## A witness that is found

For a walker that records nothing. Classes other than `Object` have no interfaces below
them, of which a search could only say that they have many implementors. -/

/-- A class that is not `Object`. -/
def Plain (H : Hierarchy) (k : Nat) : Prop := 0 < k ∧ k < H.count ∧ (H.klass k).isInterface = false

theorem Plain.subclass (h : H.Shaped) {k c : Nat} (hk : Plain H k) (hc : c < H.count)
    (hsuper : (H.klass c).super = some k) : Plain H c := by
  obtain ⟨hpos, -, -⟩ := hk
  refine ⟨(hpos.trans (h.declared.super_lt hc hsuper).1), hc, ?_⟩
  cases hinterface : (H.klass c).isInterface with
  | false => rfl
  | true =>
    rw [(h.declared.interface c hc hinterface).1] at hsuper
    have := Option.some.inj hsuper
    omega

/-- What a witness is: a class below one of these, not below a participant if those hide. -/
def Exposed (H : Hierarchy) (hide : Bool) (w : ClassHierarchyWalker) (ks : Nat → Prop)
    (witness : Nat) : Prop :=
  ∃ k, ks k ∧ Reaches H hide w.participants k witness ∧ w.isWitness H witness = true ∧
    witness ∉ w.participants

theorem Exposed.mono {ks ks' : Nat → Prop} {witness : Nat} (hks : ∀ k, ks k → ks' k)
    (h : Exposed H hide w ks witness) : Exposed H hide w ks' witness := by
  obtain ⟨k, hk, hexposed⟩ := h
  exact ⟨k, hks k hk, hexposed⟩

theorem Exposed.of_grows {ks : Nat → Prop} {witness : Nat} (hrecord : w.recordWitnesses = 0)
    (hgrows : Grows H w w') (h : Exposed H hide w' ks witness) : Exposed H hide w ks witness := by
  obtain ⟨k, hk, hreaches, hwitness, hnot⟩ := h
  rw [(hgrows.participants_eq hrecord).1] at hreaches hnot
  rw [hgrows.isWitness] at hwitness
  exact ⟨k, hk, hreaches, hwitness, hnot⟩

/-- A witness below the subclasses of a class that was searched is below the class. -/
theorem Exposed.of_subclass (ks : Nat → Prop) {k witness : Nat}
    (hopen : ¬ (hide = true ∧ k ∈ w.participants))
    (hks : ∀ c, ks c → c < H.count ∧ (H.klass c).super = some k)
    (h : Exposed H hide w ks witness) : Exposed H hide w (· = k) witness := by
  obtain ⟨c, hc, hreaches, hwitness⟩ := h
  exact ⟨k, rfl, Relation.ReflTransGen.head ⟨(hks c hc).1, (hks c hc).2, hopen⟩ hreaches, hwitness⟩

theorem walk_some (h : H.Shaped) (chainMax : Nat) (fuel : Nat) {cursor : Option Nat}
    {chains : List Nat} {l : List Nat} {ls : List (List Nat)} {witness : Nat}
    (hcursor : H.SiblingsFrom cursor l) (hchains : H.SiblingsOf chains ls)
    (hl : ∀ k ∈ l, Plain H k) (hls : ∀ k, (∃ l ∈ ls, k ∈ l) → Plain H k)
    (hrecord : w.recordWitnesses = 0)
    (hrun : walk H hide chainMax fuel w cursor chains = some (some witness, w')) :
    Exposed H hide w (fun k => k ∈ l ∨ ∃ l ∈ ls, k ∈ l) witness := by
  induction fuel generalizing w cursor chains l ls w' with
  | zero => cases hrun
  | succ fuel ih =>
    cases cursor with
    | none =>
      obtain rfl := hcursor.none_eq
      cases hchains with
      | nil => cases hrun
      | @cons chain l₁ chains ls hl₁ hls₁ =>
        rw [walk] at hrun
        refine (ih hl₁ hls₁ (fun k hk => hls k ⟨l₁, List.mem_cons_self, hk⟩)
          (fun k hk => ?_) hrecord hrun).mono fun k hk => Or.inr ?_
        · obtain ⟨l', hl', hk⟩ := hk
          exact hls k ⟨l', List.mem_cons_of_mem l₁ hl', hk⟩
        · rcases hk with hk | ⟨l', hl', hk⟩
          · exact ⟨l₁, List.mem_cons_self, hk⟩
          · exact ⟨l', List.mem_cons_of_mem l₁ hl', hk⟩
    | some sub =>
      obtain ⟨rest, rfl, hsub, hnext⟩ := hcursor.some_eq
      have hplain := hl sub List.mem_cons_self
      have hplainRest : ∀ k ∈ rest, Plain H k := fun k hk => hl k (List.mem_cons_of_mem sub hk)
      have htested := test_spec H hide w sub
      rw [walk] at hrun
      rcases htest : w.test H hide sub with ⟨finding, w₁⟩
      rw [htest] at htested hrun
      cases finding with
      | hidden =>
        obtain ⟨rfl, -⟩ := htested
        refine (ih hnext hchains hplainRest hls hrecord hrun).mono fun k hk => ?_
        exact hk.imp_left fun hk => List.mem_cons_of_mem sub hk
      | witness =>
        obtain ⟨-, hnot, hwitness⟩ := htested
        obtain rfl : sub = witness :=
          Option.some.inj (congrArg Prod.fst (Option.some.inj hrun))
        exact ⟨sub, Or.inl List.mem_cons_self, Relation.ReflTransGen.refl, hwitness, hnot⟩
      | search =>
        obtain ⟨hgrows, hopen, -⟩ := htested
        obtain ⟨hparticipants, hrecord₁⟩ := hgrows.participants_eq hrecord
        have hopen₁ : ¬ (hide = true ∧ sub ∈ w₁.participants) := by
          rw [hparticipants]
          exact hopen
        have hbelow : Exposed H hide w₁ (fun c => c < H.count ∧ (H.klass c).super = some sub)
            witness → Exposed H hide w (fun k => k ∈ sub :: rest ∨ ∃ l ∈ ls, k ∈ l) witness := by
          intro hexposed
          refine ((hexposed.of_subclass _ hopen₁ fun c hc => hc).of_grows hrecord hgrows).mono
            fun k hk => Or.inl ?_
          rw [hk]
          exact List.mem_cons_self
        have hafter : Exposed H hide w₁ (fun k => k ∈ rest ∨ ∃ l ∈ ls, k ∈ l) witness →
            Exposed H hide w (fun k => k ∈ sub :: rest ∨ ∃ l ∈ ls, k ∈ l) witness := by
          intro hexposed
          exact (hexposed.of_grows hrecord hgrows).mono fun k hk =>
            hk.imp_left fun hk => List.mem_cons_of_mem sub hk
        have hplainBelow : ∀ c, c < H.count ∧ (H.klass c).super = some sub → Plain H c :=
          fun c hc => hplain.subclass h hc.1 hc.2
        simp only at hrun
        split at hrun
        next =>
          obtain ⟨ls', hchains', hmem', -⟩ := h.siblingsOf_addSubclassChain hsub hchains
          have hexposed := ih hnext hchains' hplainRest (fun k hk => by
            rcases (hmem' k).mp hk with hk | hk
            · exact hplainBelow k hk
            · exact hls k hk) hrecord₁ hrun
          obtain ⟨k, hk, hrest⟩ := hexposed
          rcases hk with hk | hk
          · exact hafter ⟨k, Or.inl hk, hrest⟩
          · rcases (hmem' k).mp hk with hk | hk
            · exact hbelow ⟨k, hk, hrest⟩
            · exact hafter ⟨k, Or.inr hk, hrest⟩
        next =>
          -- The class has no implementors, so the call only looks at its subclasses.
          obtain ⟨ls', hchains', hmem', -⟩ := h.siblingsOf_addSubclassChain hsub
            (List.Forall₂.nil : H.SiblingsOf [] [])
          have hsearch : searchBelow H hide (walk H hide chainMax fuel) w₁ sub =
              walk H hide chainMax fuel w₁ none (addSubclassChain H sub []) := by
            rw [searchBelow, h.nofImplementors_class hsub hplain.2.2]
            rfl
          have hmem : ∀ k, (∃ l ∈ ls', k ∈ l) → k < H.count ∧ (H.klass k).super = some sub := by
            intro k hk
            simpa using (hmem' k).mp hk
          rw [hsearch] at hrun
          rcases hwalk : walk H hide chainMax fuel w₁ none (addSubclassChain H sub []) with
            _ | ⟨_ | witness', w₂⟩
          · rw [hwalk] at hrun
            cases hrun
          · rw [hwalk] at hrun
            obtain ⟨hgrows₂, -, -⟩ :=
              walk_none h _ _ Hierarchy.SiblingsFrom.nil hchains' hwalk
            have hrecord₂ := (hgrows₂.participants_eq hrecord₁).2
            exact hafter ((ih hnext hchains hplainRest hls hrecord₂ hrun).of_grows hrecord₁
              hgrows₂)
          · rw [hwalk] at hrun
            obtain rfl : witness' = witness :=
              Option.some.inj (congrArg Prod.fst (Option.some.inj hrun))
            refine hbelow ((ih Hierarchy.SiblingsFrom.nil hchains' (by simp)
              (fun k hk => hplainBelow k (hmem k hk)) hrecord₁ hwalk).mono fun k hk => ?_)
            rcases hk with hk | hk
            · exact absurd hk List.not_mem_nil
            · exact hmem k hk

/-- A witness below a context type other than `Object` is below it, or below its single
implementor. -/
theorem findWitnessAnywhere_some (h : H.Shaped) {verify : Bool} {context witness : Nat}
    (hcontext : context < H.count) (hpos : 0 < context)
    (hnof : (H.klass context).nofImplementors ≤ 1) (hrecord : w.recordWitnesses = 0)
    (hrun : findWitnessAnywhere H hide verify w context = some (some witness, w')) :
    ¬ (hide = true ∧ context ∈ w.participants) ∧
      Exposed H hide w (fun k => k = context ∨ k ∈ (H.klass context).implementors) witness := by
  have htested := test_spec H hide w context
  rw [findWitnessAnywhere] at hrun
  rcases htest : w.test H hide context with ⟨finding, w₁⟩
  rw [htest] at htested hrun
  cases finding with
  | hidden => cases hrun
  | witness =>
    obtain ⟨-, hnot, hwitness⟩ := htested
    obtain rfl : context = witness := Option.some.inj (congrArg Prod.fst (Option.some.inj hrun))
    exact ⟨fun hhide => hnot hhide.2, context, Or.inl rfl, Relation.ReflTransGen.refl, hwitness,
      hnot⟩
  | search =>
    obtain ⟨hgrows, hopen, -⟩ := htested
    refine ⟨hopen, ?_⟩
    obtain ⟨hparticipants, hrecord₁⟩ := hgrows.participants_eq hrecord
    obtain ⟨ls, hchains, hmem, -⟩ := h.siblingsOf_addSubclassChain hcontext
      (List.Forall₂.nil : H.SiblingsOf [] [])
    have hsubclass : ∀ k, (∃ l ∈ ls, k ∈ l) → k < H.count ∧ (H.klass k).super = some context := by
      intro k hk
      simpa using (hmem k).mp hk
    have hplain : ∀ k, (∃ l ∈ ls, k ∈ l) → Plain H k := by
      intro k hk
      obtain ⟨hlt, hsuper⟩ := hsubclass k hk
      exact Plain.subclass h ⟨hpos, hcontext, (h.declared.super_lt hlt hsuper).2⟩ hlt hsuper
    have hopen₁ : ¬ (hide = true ∧ context ∈ w₁.participants) := by
      rw [hparticipants]
      exact hopen
    -- What is found among the subclasses of the context type is below it.
    have hbelow : ∀ {k}, (∃ l ∈ ls, k ∈ l) ∧ Reaches H hide w₁.participants k witness ∧
        w₁.isWitness H witness = true ∧ witness ∉ w₁.participants →
        Exposed H hide w (fun k => k = context ∨ k ∈ (H.klass context).implementors) witness := by
      rintro k ⟨hk, hexposed⟩
      refine ((Exposed.of_subclass (fun k => ∃ l ∈ ls, k ∈ l) hopen₁ hsubclass
        ⟨k, hk, hexposed⟩).of_grows hrecord hgrows).mono fun k hk => Or.inl hk
    simp only [searchBelow, if_neg (Nat.not_lt.mpr hnof)] at hrun
    rcases Nat.lt_or_ge 0 (H.klass context).nofImplementors with hone | hzero
    · have hone : (H.klass context).nofImplementors = 1 := by omega
      obtain ⟨r, himpls, hlt, hr, hclass, -⟩ := h.implementors_one hcontext hone
      have hrplain : Plain H r := ⟨by omega, hr, hclass⟩
      have htested := test_spec H hide w₁ r
      rw [hone] at hrun
      simp only [List.range_one, testImplementors, himpls, List.getElem?_cons_zero] at hrun
      rcases htest : w₁.test H hide r with ⟨finding, w₂⟩
      rw [htest] at htested hrun
      have himplementor : Exposed H hide w₁ (· = r) witness →
          Exposed H hide w (fun k => k = context ∨ k ∈ (H.klass context).implementors)
            witness := by
        intro hexposed
        refine (hexposed.of_grows hrecord hgrows).mono fun k hk => Or.inr ?_
        rw [hk, himpls]
        exact List.mem_cons_self
      cases finding with
      | hidden =>
        obtain ⟨rfl, -⟩ := htested
        obtain ⟨k, hk, hexposed⟩ := walk_some h _ _ Hierarchy.SiblingsFrom.nil hchains (by simp)
          hplain hrecord₁ hrun
        exact hbelow ⟨hk.resolve_left List.not_mem_nil, hexposed⟩
      | witness =>
        obtain ⟨-, hnot, hwitness⟩ := htested
        obtain rfl : r = witness := Option.some.inj (congrArg Prod.fst (Option.some.inj hrun))
        exact himplementor ⟨r, rfl, Relation.ReflTransGen.refl, hwitness, hnot⟩
      | search =>
        obtain ⟨hgrows₂, hopen₂, -⟩ := htested
        obtain ⟨hparticipants₂, hrecord₂⟩ := hgrows₂.participants_eq hrecord₁
        obtain ⟨ls', hchains', hmem', -⟩ := h.siblingsOf_addSubclassChain hr hchains
        obtain ⟨k, hk, hexposed⟩ := walk_some h _ _ Hierarchy.SiblingsFrom.nil hchains' (by simp)
          (fun k hk => by
            rcases (hmem' k).mp hk with hk | hk
            · exact hrplain.subclass h hk.1 hk.2
            · exact hplain k hk) hrecord₂ hrun
        rcases (hmem' k).mp (hk.resolve_left List.not_mem_nil) with hk | hk
        · refine himplementor ((Exposed.of_subclass
            (fun k => k < H.count ∧ (H.klass k).super = some r) ?_ (fun c hc => hc)
            ⟨k, hk, hexposed⟩).of_grows hrecord₁ hgrows₂)
          rw [hparticipants₂]
          exact hopen₂
        · have hchain : Exposed H hide w₂ (fun k => ∃ l ∈ ls, k ∈ l) witness :=
            ⟨k, hk, hexposed⟩
          obtain ⟨k, hk, hexposed⟩ := hchain.of_grows hrecord₁ hgrows₂
          exact hbelow ⟨hk, hexposed⟩
    · have hnone : (H.klass context).nofImplementors = 0 := Nat.le_zero.mp hzero
      rw [hnone] at hrun
      simp only [List.range_zero, testImplementors] at hrun
      obtain ⟨k, hk, hexposed⟩ := walk_some h _ _ Hierarchy.SiblingsFrom.nil hchains (by simp)
        hplain hrecord₁ hrun
      exact hbelow ⟨hk.resolve_left List.not_mem_nil, hexposed⟩

/-! ## Where the participants come from -/

theorem test_participants (H : Hierarchy) (hide : Bool) (w : ClassHierarchyWalker) (k : Nat) :
    ∀ p ∈ (w.test H hide k).2.participants, p ∈ w.participants ∨ p = k := by
  have hmemoize : (w.memoize H k).participants = w.participants := by
    rw [memoize]
    split <;> rfl
  have hignore : ∀ p ∈ ((w.memoize H k).ignoreWitness k).2.participants,
      p ∈ w.participants ∨ p = k := by
    intro p hp
    rw [ignoreWitness] at hp
    split at hp
    next =>
      rw [hmemoize] at hp
      exact Or.inl hp
    next =>
      rcases List.mem_append.mp hp with hp | hp
      · rw [← hmemoize]
        exact Or.inl hp
      · exact Or.inr (List.mem_singleton.mp hp)
  intro p hp
  rw [test] at hp
  split at hp
  next => exact Or.inl hp
  next =>
    split at hp
    next => exact hignore p hp
    next => exact Or.inl hp

/-- A property that a search passes on from each class to those it looks at next. -/
structure PassedDown (H : Hierarchy) (Q : Nat → Prop) : Prop where
  subclass : ∀ k c, Q k → c < H.count → (H.klass c).super = some k → Q c
  implementor : ∀ k r, k < H.count → Q k → r ∈ (H.klass k).implementors → Q r

/-- Every new participant has the property. -/
def Gathers (Q : Nat → Prop) (w w' : ClassHierarchyWalker) : Prop :=
  ∀ p ∈ w'.participants, p ∈ w.participants ∨ Q p

theorem Gathers.trans {Q : Nat → Prop} (h : Gathers Q w w') (h' : Gathers Q w' w'') :
    Gathers Q w w'' := by
  intro p hp
  rcases h' p hp with hp | hp
  · exact h p hp
  · exact Or.inr hp

theorem gathers_test (H : Hierarchy) (hide : Bool) (w : ClassHierarchyWalker) {Q : Nat → Prop}
    {k : Nat} (hk : Q k) :
    Gathers Q w (w.test H hide k).2 := by
  intro p hp
  rcases test_participants H hide w k p hp with hp | rfl
  · exact Or.inl hp
  · exact Or.inr hk

section Gathering

variable {Q : Nat → Prop}

theorem testImplementors_gathers (hide : Bool) (w : ClassHierarchyWalker) (is : List Nat)
    (hQ : PassedDown H Q) (h : H.Shaped) {context : Nat} (hcontext : context < H.count)
    (hcontextQ : Q context) {chains : List Nat} {ls : List (List Nat)}
    (hchains : H.SiblingsOf chains ls) (hls : ∀ k, (∃ l ∈ ls, k ∈ l) → Q k) :
    Gathers Q w (testImplementors H hide context is w chains).2.1 ∧
      ∃ ls', H.SiblingsOf (testImplementors H hide context is w chains).2.2 ls' ∧
        ∀ k, (∃ l ∈ ls', k ∈ l) → Q k := by
  induction is generalizing w chains ls with
  | nil => exact ⟨fun p hp => Or.inl hp, ls, hchains, hls⟩
  | cons i is ih =>
    rw [testImplementors]
    split
    next => exact ⟨fun p hp => Or.inl hp, ls, hchains, hls⟩
    next impl himpl =>
      have hmem : impl ∈ (H.klass context).implementors := List.mem_of_getElem? himpl
      have himplQ := hQ.implementor context impl hcontext hcontextQ hmem
      have himplCount : impl < H.count := by
        obtain ⟨regs, ⟨-, hlist⟩, habove, -⟩ := h.registered context hcontext
        rw [hlist] at hmem
        split at hmem
        next => exact (habove impl hmem).1
        next => exact absurd hmem List.not_mem_nil
      have htest := gathers_test H hide w himplQ
      rcases hresult : w.test H hide impl with ⟨finding, w₁⟩
      rw [hresult] at htest
      cases finding with
      | hidden =>
        obtain ⟨hgathers, hrest⟩ := ih w₁ hchains hls
        exact ⟨htest.trans hgathers, hrest⟩
      | witness => exact ⟨htest, ls, hchains, hls⟩
      | search =>
        obtain ⟨ls', hchains', hmem', -⟩ :=
          h.siblingsOf_addSubclassChain himplCount hchains
        obtain ⟨hgathers, hrest⟩ := ih w₁ hchains' fun k hk => by
          rcases (hmem' k).mp hk with ⟨hk, hsuper⟩ | hk
          · exact hQ.subclass impl k himplQ hk hsuper
          · exact hls k hk
        exact ⟨htest.trans hgathers, hrest⟩

theorem searchBelow_gathers (hQ : PassedDown H Q) (h : H.Shaped)
    {walk : ClassHierarchyWalker → Option Nat → List Nat →
      Option (Option Nat × ClassHierarchyWalker)} {result : Option Nat}
    (hwalk : ∀ w chains ls result w', H.SiblingsOf chains ls → (∀ k, (∃ l ∈ ls, k ∈ l) → Q k) →
      walk w none chains = some (result, w') → Gathers Q w w')
    {context : Nat} (hcontext : context < H.count) (hcontextQ : Q context)
    (hrun : searchBelow H hide walk w context = some (result, w')) : Gathers Q w w' := by
  obtain ⟨ls, hchains, hmem, -⟩ := h.siblingsOf_addSubclassChain hcontext
    (List.Forall₂.nil : H.SiblingsOf [] [])
  have hls : ∀ k, (∃ l ∈ ls, k ∈ l) → Q k := by
    intro k hk
    have hk' := (hmem k).mp hk
    simp only [List.not_mem_nil, false_and, exists_false, or_false] at hk'
    exact hQ.subclass context k hcontextQ hk'.1 hk'.2
  rw [searchBelow] at hrun
  split at hrun
  next =>
    obtain rfl : w = w' := congrArg Prod.snd (Option.some.inj hrun)
    exact fun p hp => Or.inl hp
  next =>
    obtain ⟨hgathers, ls', hchains', hls'⟩ := testImplementors_gathers hide w
      (List.range (H.klass context).nofImplementors) hQ h hcontext hcontextQ hchains hls
    rcases himpls : testImplementors H hide context
      (List.range (H.klass context).nofImplementors) w (addSubclassChain H context []) with
      ⟨witness, w₁, chains'⟩
    rw [himpls] at hgathers hchains' hrun
    cases witness with
    | some witness =>
      obtain rfl : w₁ = w' := congrArg Prod.snd (Option.some.inj hrun)
      exact hgathers
    | none => exact hgathers.trans (hwalk w₁ _ ls' result w' hchains' hls' hrun)

theorem walk_gathers (hQ : PassedDown H Q) (h : H.Shaped) (chainMax : Nat) (fuel : Nat)
    {cursor : Option Nat} {chains : List Nat} {l : List Nat} {ls : List (List Nat)}
    {result : Option Nat} (hcursor : H.SiblingsFrom cursor l) (hchains : H.SiblingsOf chains ls)
    (hl : ∀ k ∈ l, Q k) (hls : ∀ k, (∃ l ∈ ls, k ∈ l) → Q k)
    (hrun : walk H hide chainMax fuel w cursor chains = some (result, w')) : Gathers Q w w' := by
  induction fuel generalizing w cursor chains l ls result w' with
  | zero => cases hrun
  | succ fuel ih =>
    cases cursor with
    | none =>
      obtain rfl := hcursor.none_eq
      cases hchains with
      | nil =>
        obtain rfl : w = w' := congrArg Prod.snd (Option.some.inj hrun)
        exact fun p hp => Or.inl hp
      | @cons chain l₁ chains ls hl₁ hls₁ =>
        rw [walk] at hrun
        refine ih hl₁ hls₁ (fun k hk => hls k ⟨l₁, List.mem_cons_self, hk⟩)
          (fun k hk => ?_) hrun
        obtain ⟨l', hl', hk⟩ := hk
        exact hls k ⟨l', List.mem_cons_of_mem l₁ hl', hk⟩
    | some sub =>
      obtain ⟨rest, rfl, hsub, hnext⟩ := hcursor.some_eq
      have hsubQ := hl sub List.mem_cons_self
      have hrest : ∀ k ∈ rest, Q k := fun k hk => hl k (List.mem_cons_of_mem sub hk)
      have htest := gathers_test H hide w hsubQ
      rw [walk] at hrun
      rcases hresult : w.test H hide sub with ⟨finding, w₁⟩
      rw [hresult] at htest hrun
      cases finding with
      | hidden => exact htest.trans (ih hnext hchains hrest hls hrun)
      | witness =>
        obtain rfl : w₁ = w' := congrArg Prod.snd (Option.some.inj hrun)
        exact htest
      | search =>
        simp only at hrun
        split at hrun
        next =>
          obtain ⟨ls', hchains', hmem', -⟩ := h.siblingsOf_addSubclassChain hsub hchains
          refine htest.trans (ih hnext hchains' hrest (fun k hk => ?_) hrun)
          rcases (hmem' k).mp hk with ⟨hk, hsuper⟩ | hk
          · exact hQ.subclass sub k hsubQ hk hsuper
          · exact hls k hk
        next =>
          rcases hsearch : searchBelow H hide (walk H hide chainMax fuel) w₁ sub with
            _ | ⟨witness, w₂⟩
          · rw [hsearch] at hrun
            cases hrun
          · have hgathers := searchBelow_gathers hQ h (fun w chains ls result w' hchains hls =>
              ih Hierarchy.SiblingsFrom.nil hchains (by simp) hls) hsub hsubQ hsearch
            rw [hsearch] at hrun
            cases witness with
            | some witness =>
              obtain rfl : w₂ = w' := congrArg Prod.snd (Option.some.inj hrun)
              exact htest.trans hgathers
            | none => exact htest.trans (hgathers.trans (ih hnext hchains hrest hls hrun))

theorem findWitnessAnywhere_gathers (hQ : PassedDown H Q) (h : H.Shaped) {verify : Bool}
    {context : Nat} {result : Option Nat} (hcontext : context < H.count) (hcontextQ : Q context)
    (hrun : findWitnessAnywhere H hide verify w context = some (result, w')) :
    Gathers Q w w' := by
  have htest := gathers_test H hide w hcontextQ
  rw [findWitnessAnywhere] at hrun
  rcases hresult : w.test H hide context with ⟨finding, w₁⟩
  rw [hresult] at htest hrun
  cases finding with
  | hidden =>
    obtain rfl : w₁ = w' := congrArg Prod.snd (Option.some.inj hrun)
    exact htest
  | witness =>
    obtain rfl : w₁ = w' := congrArg Prod.snd (Option.some.inj hrun)
    exact htest
  | search =>
    exact htest.trans (searchBelow_gathers hQ h (fun w chains ls result w' hchains hls =>
      walk_gathers hQ h _ _ Hierarchy.SiblingsFrom.nil hchains (by simp) hls) hcontext hcontextQ
        hrun)

end Gathering

end ClassHierarchyWalker

end HotSpot
