import HotSpot.Classfile.Assignable
import HotSpot.Classfile.Verifier
import Mathlib

/-! # The dimensions of an array class

The check of multianewarray against `VerificationType::dimensions`, which counts the brackets that
the name of an array class starts with.
-/

namespace HotSpot

open VerificationType CurrentFrame ClassFileParser

/-- The loop of `dimensions`, with the index of the next letter. The index is increased after each
test, also after the one that fails. -/
def dimensionsLoop (index : Nat) : Bytes → Nat
  | [] => index
  | letter :: letters =>
    if letter = Letter.array then dimensionsLoop (index + 1) letters else index + 1

/-- The name of an array class: brackets before the component. -/
structure ArrayClassName (brackets : Nat) (name : Bytes) : Prop where
  pos : 1 ≤ brackets
  name_eq : ∃ letter rest, letter ≠ Letter.array ∧
    name = List.replicate brackets Letter.array ++ letter :: rest

namespace ArrayClassName

variable {brackets : Nat} {name : Bytes}

theorem isArray (h : ArrayClassName brackets name) : (reference name).isArray = true := by
  obtain ⟨letter, rest, -, rfl⟩ := h.name_eq
  obtain ⟨more, hmore⟩ := Nat.exists_eq_add_of_le h.pos
  rw [hmore, Nat.add_comm]
  have hlength : 1 ≤ more + (rest.length + 1) := by omega
  simpa [VerificationType.isArray, List.replicate_succ] using hlength

theorem dimensionsLoop_eq (h : ArrayClassName brackets name) (index : Nat) :
    dimensionsLoop index name = index + brackets + 1 := by
  obtain ⟨letter, rest, hletter, rfl⟩ := h.name_eq
  clear h
  induction brackets generalizing index with
  | zero => exact if_neg hletter
  | succ brackets ih =>
    rw [List.replicate_succ, List.cons_append, dimensionsLoop, if_pos rfl, ih]
    omega

theorem dimensions_eq (h : ArrayClassName brackets name) :
    (reference name).dimensions = brackets + 1 := by
  obtain ⟨letter, rest, hletter, rfl⟩ := h.name_eq
  have hfirst : (List.replicate brackets Letter.array ++ letter :: rest).takeWhile
      (· = Letter.array) = List.replicate brackets Letter.array := by
    rw [List.takeWhile_append_of_pos, List.takeWhile_cons_of_neg, List.append_nil]
    · simpa using hletter
    · intro b hb
      simpa using List.eq_of_mem_replicate hb
  rw [dimensions, hfirst, List.length_replicate]

end ArrayClassName

/-! ## The operands of multianewarray -/

namespace ClassVerifier

variable {K : Type} [DecidableEq K] (v : ClassVerifier K) {f f' : CurrentFrame}

theorem integer_isAssignableFrom {source : VerificationType} :
    integer.isAssignableFrom v.hierarchy source = some true ↔ source = integer := by
  constructor
  · intro h
    by_contra hne
    have hne' : integer ≠ source := Ne.symm hne
    simp [isAssignableFrom, isAssignableWith, hne', isBogus, isReference] at h
  · rintro rfl
    simp [isAssignableFrom, isAssignableWith]

theorem popOperand_int_ok {rest : List VerificationType} (hstack : f.stack = integer :: rest) :
    (v.popOperand .int).run f = .ok ((), { f with stack := rest }) := by
  have hassignable : integer.isAssignableFrom v.hierarchy integer = some true :=
    v.integer_isAssignableFrom.2 rfl
  simp only [popOperand, StateT.run, bind, StateT.bind, popStack, hstack, hassignable]
  rfl

theorem popOperands_replicate_ok {dim : Nat} {rest : List VerificationType}
    (hstack : f.stack = List.replicate dim integer ++ rest) :
    (v.popOperands (List.replicate dim .int)).run f = .ok ((), { f with stack := rest }) := by
  induction dim generalizing f with
  | zero =>
    rw [List.replicate_zero, List.nil_append] at hstack
    rw [← hstack]
    rfl
  | succ dim ih =>
    rw [List.replicate_succ, List.cons_append] at hstack
    rw [List.replicate_succ, popOperands]
    simp only [StateT.run_bind, v.popOperand_int_ok hstack]
    exact ih rfl

theorem replicate_of_popOperands {dim : Nat}
    (hrun : (v.popOperands (List.replicate dim .int)).run f = .ok ((), f')) :
    ∃ rest, f.stack = List.replicate dim integer ++ rest := by
  induction dim generalizing f with
  | zero => exact ⟨f.stack, rfl⟩
  | succ dim ih =>
    rw [List.replicate_succ, popOperands] at hrun
    obtain ⟨_, f₁, hfirst, hrun⟩ := run_bind_eq_ok hrun
    obtain ⟨top, f₂, hpop, hdone⟩ := run_bind_eq_ok hfirst
    obtain ⟨stack, hstack, hassignable, rfl⟩ := popStack_eq_ok v.hierarchy hpop
    cases hdone
    obtain ⟨rest, hrest⟩ := ih hrun
    have hrest' : stack = List.replicate dim integer ++ rest := hrest
    refine ⟨rest, ?_⟩
    rw [hstack, v.integer_isAssignableFrom.1 hassignable, hrest', List.replicate_succ]
    rfl

/-- The verifier goes on after a multianewarray. -/
def AcceptsMultianewarray (index dim : Nat) (f : CurrentFrame) : Prop :=
  ∃ f', (v.verifyMultianewarray index dim).run f = .ok ((), f')

/-- There are that many ints on top of the stack. -/
def IntsOnStack (dim : Nat) (f : CurrentFrame) : Prop :=
  ∃ rest, f.stack = List.replicate dim integer ++ rest

/-- The frames that the verifier builds keep the stack in its limit. -/
theorem acceptsMultianewarray_iff {index dim brackets : Nat} {name : Bytes}
    (hconstant : v.constants index = some (.klass name)) (hname : ArrayClassName brackets name)
    (hstack : f.stack.length ≤ f.maxStack) :
    v.AcceptsMultianewarray index dim f ↔
      (1 ≤ dim ∧ dim ≤ brackets + 1) ∧ IntsOnStack dim f := by
  have hclass : v.classTypeAt index = pure name := by rw [classTypeAt, hconstant]
  unfold AcceptsMultianewarray verifyMultianewarray
  rw [hclass]
  simp only [pure_bind, hname.isArray, hname.dimensions_eq, require, if_true]
  by_cases hdim : 1 ≤ dim ∧ dim ≤ brackets + 1
  · simp only [hdim, decide_true, if_true, pure_bind, true_and, and_self]
    constructor
    · rintro ⟨f', hrun⟩
      obtain ⟨_, f₁, hpop, -⟩ := run_bind_eq_ok hrun
      exact v.replicate_of_popOperands hpop
    · rintro ⟨rest, hrest⟩
      refine ⟨{ f with stack := .reference name :: rest }, ?_⟩
      have hroom : ¬ f.maxStack ≤ rest.length := by
        rw [hrest, List.length_append, List.length_replicate] at hstack
        omega
      simp only [StateT.run_bind, v.popOperands_replicate_ok hrest]
      exact if_neg hroom
  · simp only [hdim, decide_false, false_and, iff_false]
    rintro ⟨f', hrun⟩
    cases hrun

/-- With one byte for the operand, every array of up to `limit` dimensions is accepted and no
other one. -/
def AcceptsUpTo (index limit : Nat) : Prop :=
  ∀ dim < 256, ∀ f : CurrentFrame, f.stack.length ≤ f.maxStack →
    (v.AcceptsMultianewarray index dim f ↔ (1 ≤ dim ∧ dim ≤ limit) ∧ IntsOnStack dim f)

/-- The count is that of the brackets, and multianewarray is checked against it. -/
def DimensionsExact (index brackets : Nat) (name : Bytes) : Prop :=
  dimensionsLoop 0 name = brackets ∧ v.AcceptsUpTo index brackets

/-- The count is one too high for every array class. The verifier accepts one dimension too many
unless the operand cannot ask for it. -/
theorem not_dimensionsExact {index brackets : Nat} {name : Bytes}
    (hconstant : v.constants index = some (.klass name)) (hname : ArrayClassName brackets name) :
    ¬ v.DimensionsExact index brackets name ∧
      (v.AcceptsUpTo index brackets ↔ 255 ≤ brackets) := by
  refine ⟨?_, ?_, ?_⟩
  · rintro ⟨hdimensions, -⟩
    rw [hname.dimensionsLoop_eq] at hdimensions
    omega
  · intro hexact
    by_contra hlt
    let f : CurrentFrame := ⟨brackets + 1, 0, [], List.replicate (brackets + 1) integer, false⟩
    have hstack : f.stack.length ≤ f.maxStack := Nat.le_of_eq List.length_replicate
    have hints : IntsOnStack (brackets + 1) f := ⟨[], (List.append_nil _).symm⟩
    have haccepts := (v.acceptsMultianewarray_iff hconstant hname hstack).2
      ⟨⟨by omega, Nat.le_refl _⟩, hints⟩
    obtain ⟨⟨-, hle⟩, -⟩ := (hexact (brackets + 1) (by omega) f hstack).1 haccepts
    omega
  · intro hge dim hdim f hstack
    rw [v.acceptsMultianewarray_iff hconstant hname hstack]
    have hsame : dim ≤ brackets + 1 ↔ dim ≤ brackets := ⟨fun _ => by omega, fun _ => by omega⟩
    rw [hsame]

end ClassVerifier

/-! ## An array of one dimension -/

/-- Only `java.lang.Object` can be loaded. -/
def ClassHierarchy.objectOnly : ClassHierarchy Unit := ReferenceType.rootHierarchy

/-- A class whose constant pool has the class `[I` at 1. -/
def ClassVerifier.intArrayUser : ClassVerifier Unit where
  hierarchy := .objectOnly
  className := [0x41]
  superNames := [javaLangObject]
  constants index := if index = 1 then some (.klass [0x5B, 0x49]) else none
  isProtectedInit _ _ := none

theorem arrayClassName_intArray : ArrayClassName 1 [0x5B, 0x49] :=
  ⟨Nat.le_refl 1, 0x49, [], by decide, rfl⟩

theorem not_dimensionsExact_intArray :
    ¬ ClassVerifier.intArrayUser.DimensionsExact 1 1 [0x5B, 0x49] ∧
      (ClassVerifier.intArrayUser.AcceptsUpTo 1 1 ↔ 255 ≤ 1) :=
  ClassVerifier.not_dimensionsExact _ rfl arrayClassName_intArray

/-- A frame with two ints on its stack. -/
def CurrentFrame.twoInts : CurrentFrame := ⟨2, 0, [], [integer, integer], false⟩

/-- Two dimensions of an `[I`. -/
theorem intArray_accepts_two :
    ¬ (∀ (v : ClassVerifier Unit) (index brackets : Nat) (name : Bytes),
      v.constants index = some (.klass name) → ArrayClassName brackets name →
      v.DimensionsExact index brackets name) ∧
    ClassVerifier.intArrayUser.AcceptsMultianewarray 1 2 .twoInts := by
  have hstack : CurrentFrame.twoInts.stack.length ≤ CurrentFrame.twoInts.maxStack := by decide
  have htwo : ClassVerifier.intArrayUser.AcceptsMultianewarray 1 2 .twoInts :=
    (ClassVerifier.acceptsMultianewarray_iff _ rfl arrayClassName_intArray hstack).2
      ⟨⟨by decide, by decide⟩, [], rfl⟩
  refine ⟨fun hall => ?_, htwo⟩
  obtain ⟨-, hexact⟩ := hall .intArrayUser 1 1 [0x5B, 0x49] rfl arrayClassName_intArray
  obtain ⟨⟨-, hle⟩, -⟩ := (hexact 2 (by decide) _ hstack).1 htwo
  omega

end HotSpot
