import HotSpot.Prims.MethodWalk

/-! # The annotations of renumbered methods

Annotations are found by the number of a method. When two numbers are exchanged the three tables
should be exchanged with them, but all three are written into the first.
-/

namespace HotSpot.RedefineClasses

variable {Name Sig T : Type}

/-! ## Exchanging two numbers -/

/-- What was written is read again, also where the array had to be made longer. -/
theorem getMethodAnnotationsFrom_set (idnumAllocatedCount idnum : Nat) (anno : Option T)
    (md : Annotations T) (n : Nat) :
    getMethodAnnotationsFrom n (setMethodsAnnotationsOf idnumAllocatedCount idnum anno md) =
      if n = idnum then anno else getMethodAnnotationsFrom n md := by
  have hset : ∀ annos : List (Option T), idnum < annos.length →
      ((annos.set idnum anno)[n]?).join = if n = idnum then anno else (annos[n]?).join := by
    intro annos hlt
    rw [List.getElem?_set]
    by_cases hn : n = idnum
    · rw [if_pos hn.symm, if_pos hlt, if_pos hn]
      rfl
    · rw [if_neg (Ne.symm hn), if_neg hn]
  have hlonger : ∀ (annos : List (Option T)) (more : Nat),
      ((annos ++ List.replicate more none)[n]?).join = (annos[n]?).join := by
    intro annos more
    rcases Nat.lt_or_ge n annos.length with hlt | hge
    · rw [List.getElem?_append_left hlt]
    · rw [List.getElem?_append_right hge, List.getElem?_eq_none hge, List.getElem?_replicate]
      split <;> rfl
  have habsent : ¬ anno.isSome = true → anno = none := by simp
  unfold setMethodsAnnotationsOf
  split
  next annos =>
    split
    next hlt => exact hset annos hlt
    next hge =>
      split
      next =>
        change ((List.set _ idnum anno)[n]?).join = _
        rw [hset _ (by rw [List.length_append, List.length_replicate]; omega), hlonger]
        rfl
      next hanno =>
        by_cases hn : n = idnum
        · rw [if_pos hn, habsent hanno, hn]
          change (annos[idnum]?).join = none
          rw [List.getElem?_eq_none (Nat.le_of_not_lt hge)]
          rfl
        · rw [if_neg hn]
  next =>
    split
    next =>
      change ((List.set _ idnum anno)[n]?).join = _
      rw [hset _ (by rw [List.length_replicate]; omega)]
      exact if_congr Iff.rfl rfl (hlonger [] _)
    next hanno =>
      rw [habsent hanno]
      exact (ite_self none).symm

section

variable (k : ScratchClass Name Sig T) (i j n : Nat)

/-- The annotations become the default annotations of the other number. -/
theorem annotations_swapAll : (k.swapAllMethodAnnotations i j).getMethodAnnotationsOf n =
    if n = j then k.getMethodDefaultAnnotationsOf i
    else if n = i then k.getMethodDefaultAnnotationsOf j
    else k.getMethodAnnotationsOf n := by
  unfold ScratchClass.swapAllMethodAnnotations ScratchClass.setMethodDefaultAnnotationsOf
    ScratchClass.setMethodParameterAnnotationsOf ScratchClass.setMethodAnnotationsOf
    ScratchClass.getMethodDefaultAnnotationsOf ScratchClass.getMethodAnnotationsOf
  simp only [getMethodAnnotationsFrom_set]
  by_cases hj : n = j
  · rw [if_pos hj, if_pos hj]
  · by_cases hi : n = i
    · simp only [if_neg hj, if_pos hi]
    · simp only [if_neg hj, if_neg hi]

end

/-! ## The numbers that are exchanged -/

/-- The numbers that a walk exchanges for these fates, when the old class has allocated so many. -/
def exchanges : Nat → List (Fate Name Sig) → List (Nat × Nat)
  | _, [] => []
  | count, .matched old new :: fates =>
    if new.idnum ≠ old.idnum then (old.idnum, new.idnum) :: exchanges count fates
    else exchanges count fates
  | count, .added new :: fates =>
    (new.idnum, (nextMethodIdnum count).1) :: exchanges (nextMethodIdnum count).2 fates
  | count, .deleted _ :: fates => exchanges count fates

/-- The number that a number was last exchanged with. -/
def lastPartner (n : Nat) : List (Nat × Nat) → Option Nat
  | [] => none
  | (i, j) :: pairs =>
    match lastPartner n pairs with
    | some c => some c
    | none => if n = j then some i else if n = i then some j else none

theorem lastPartner_cons (n i j : Nat) (pairs : List (Nat × Nat)) :
    lastPartner n ((i, j) :: pairs) = match lastPartner n pairs with
      | some c => some c
      | none => if n = j then some i else if n = i then some j else none := rfl

/-- The tables of a class after some numbers were exchanged. -/
structure Exchanged (k k' : ScratchClass Name Sig T) (pairs : List (Nat × Nat)) : Prop where
  annotations : ∀ n, k'.getMethodAnnotationsOf n = match lastPartner n pairs with
    | some c => k.getMethodDefaultAnnotationsOf c
    | none => k.getMethodAnnotationsOf n
  parameters : ∀ n, k'.getMethodParameterAnnotationsOf n = k.getMethodParameterAnnotationsOf n
  defaults : ∀ n, k'.getMethodDefaultAnnotationsOf n = k.getMethodDefaultAnnotationsOf n

/-- One more exchange in front. -/
theorem Exchanged.cons {k k₁ k' : ScratchClass Name Sig T} {i j : Nat} {pairs : List (Nat × Nat)}
    (hannotations : ∀ n, k₁.getMethodAnnotationsOf n =
      if n = j then k.getMethodDefaultAnnotationsOf i
      else if n = i then k.getMethodDefaultAnnotationsOf j
      else k.getMethodAnnotationsOf n)
    (hparameters : ∀ n, k₁.getMethodParameterAnnotationsOf n = k.getMethodParameterAnnotationsOf n)
    (hdefaults : ∀ n, k₁.getMethodDefaultAnnotationsOf n = k.getMethodDefaultAnnotationsOf n)
    (h : Exchanged k₁ k' pairs) : Exchanged k k' ((i, j) :: pairs) where
  annotations n := by
    rw [h.annotations, lastPartner_cons]
    cases lastPartner n pairs with
    | some c => exact hdefaults c
    | none =>
      simp only
      rw [hannotations]
      by_cases hj : n = j
      · simp only [if_pos hj]
      · by_cases hi : n = i
        · simp only [if_neg hj, if_pos hi]
        · simp only [if_neg hj, if_neg hi]
  parameters n := (h.parameters n).trans (hparameters n)
  defaults n := (h.defaults n).trans (hdefaults n)

theorem Exchanged.refl (k : ScratchClass Name Sig T) : Exchanged k k [] :=
  ⟨fun _ => rfl, fun _ => rfl, fun _ => rfl⟩

theorem Exchanged.swapAll {k k' : ScratchClass Name Sig T} {methods : List (Method Name Sig)}
    {i j : Nat} {pairs : List (Nat × Nat)}
    (h : Exchanged ({ k with methods := methods }.swapAllMethodAnnotations i j) k' pairs) :
    Exchanged k k' ((i, j) :: pairs) :=
  .cons (annotations_swapAll { k with methods := methods } i j) (fun _ => rfl) (fun _ => rfl) h

/-- One turn exchanges the number of the method that it is about. -/
theorem judge_exchanged {w w' : Walk Name Sig T} {found : Fate Name Sig}
    {methods : List (Method Name Sig)} (hjudge : judge (w.record found methods) found = .next w')
    {k : ScratchClass Name Sig T} {fates : List (Fate Name Sig)}
    (h : Exchanged w'.scratch k (exchanges w'.idnumAllocatedCount fates)) :
    w'.fates = w.fates ++ [found] ∧
      Exchanged w.scratch k (exchanges w.idnumAllocatedCount (found :: fates)) := by
  cases found with
  | matched old new =>
    simp only [judge] at hjudge
    split at hjudge
    next => cases hjudge
    next =>
      obtain rfl := Turn.next.inj hjudge
      refine ⟨rfl, ?_⟩
      have hcount : (w.record (.matched old new) methods).idnumAllocatedCount =
          w.idnumAllocatedCount := rfl
      simp only [ScratchClass.takeOver, hcount] at h
      unfold exchanges
      split at h
      next hne =>
        rw [if_pos hne]
        exact .swapAll h
      next heq =>
        rw [if_neg heq]
        exact ⟨h.annotations, h.parameters, h.defaults⟩
  | added new =>
    simp only [judge] at hjudge
    split at hjudge
    next => cases hjudge
    next =>
      split at hjudge
      next => cases hjudge
      next =>
        obtain rfl := Turn.next.inj hjudge
        exact ⟨rfl, .swapAll h⟩
  | deleted old =>
    simp only [judge] at hjudge
    split at hjudge
    next => cases hjudge
    next =>
      obtain rfl := Turn.next.inj hjudge
      exact ⟨rfl, ⟨h.annotations, h.parameters, h.defaults⟩⟩

/-- A walk that a method ends has an error. -/
theorem judge_done {w w' : Walk Name Sig T} {found : Fate Name Sig} {error : JvmtiError}
    (h : judge w found = .done error w') : error ≠ .none := by
  cases found with
  | matched old new =>
    simp only [judge] at h
    split at h
    next =>
      obtain ⟨rfl, -⟩ := Turn.done.inj h
      exact nofun
    next => cases h
  | added new =>
    simp only [judge] at h
    split at h
    next =>
      obtain ⟨rfl, -⟩ := Turn.done.inj h
      exact nofun
    next =>
      split at h
      next =>
        obtain ⟨rfl, -⟩ := Turn.done.inj h
        exact nofun
      next => cases h
  | deleted old =>
    simp only [judge] at h
    split at h
    next =>
      obtain ⟨rfl, -⟩ := Turn.done.inj h
      exact nofun
    next => cases h

section

variable [LinearOrder Name] [DecidableEq Sig] {oldMethods : List (Method Name Sig)}

/-- What a walk without an error does to the tables. -/
theorem walk_exchanged {fuel : Nat} {w w' : Walk Name Sig T}
    (h : walk oldMethods fuel w = some (.none, w')) :
    ∃ fates, w'.fates = w.fates ++ fates ∧
      Exchanged w.scratch w'.scratch (exchanges w.idnumAllocatedCount fates) := by
  induction fuel generalizing w with
  | zero => cases h
  | succ fuel ih =>
    unfold walk turn at h
    cases hfate : fate oldMethods w.scratch.methods w.oi w.ni with
    | none =>
      rw [hfate] at h
      obtain ⟨-, rfl⟩ := Prod.mk.inj (Option.some.inj h)
      exact ⟨[], (List.append_nil _).symm, .refl _⟩
    | some result =>
      obtain ⟨found, methods⟩ := result
      rw [hfate] at h
      simp only at h
      cases hjudge : judge (w.record found methods) found with
      | done error w₁ =>
        rw [hjudge] at h
        exact absurd (Prod.mk.inj (Option.some.inj h)).1 (judge_done hjudge)
      | next w₁ =>
        rw [hjudge] at h
        obtain ⟨fates, hfates, hexchanged⟩ := ih h
        obtain ⟨hfates', hexchanged'⟩ := judge_exchanged hjudge hexchanged
        refine ⟨found :: fates, ?_, hexchanged'⟩
        rw [hfates, hfates', List.append_assoc, List.singleton_append]

end

/-! ## The numbers do not depend on the annotations -/

/-- A class without annotations. -/
def ScratchClass.bare (k : ScratchClass Name Sig T) : ScratchClass Name Sig Unit :=
  ⟨k.methods, none, none, none, 0⟩

def Walk.bare (w : Walk Name Sig T) : Walk Name Sig Unit :=
  ⟨w.oi, w.ni, w.scratch.bare, w.idnumAllocatedCount, w.fates⟩

def Turn.bare : Turn Name Sig T → Turn Name Sig Unit
  | .done error w => .done error w.bare
  | .next w => .next w.bare

theorem takeOver_bare (k : ScratchClass Name Sig T) (ni : Nat) (old new : Method Name Sig) :
    k.bare.takeOver ni old new = (k.takeOver ni old new).bare := by
  unfold ScratchClass.takeOver
  split <;> rfl

theorem judge_bare (w : Walk Name Sig T) (found : Fate Name Sig) :
    judge w.bare found = (judge w found).bare := by
  cases found with
  | matched old new =>
    simp only [judge]
    split
    next => rfl
    next =>
      simp only [Turn.bare, Walk.bare]
      rw [takeOver_bare]
  | added new =>
    simp only [judge]
    split
    next => rfl
    next =>
      change (if (nextMethodIdnum w.idnumAllocatedCount).1 = unsetIdnum then _ else _) = _
      split <;> rfl
  | deleted old =>
    simp only [judge]
    split <;> rfl

section

variable [LinearOrder Name] [DecidableEq Sig] {oldMethods : List (Method Name Sig)} {count : Nat}

theorem walk_bare (oldMethods : List (Method Name Sig)) (fuel : Nat) (w : Walk Name Sig T) :
    walk oldMethods fuel w.bare =
      (walk oldMethods fuel w).map fun (error, w) => (error, w.bare) := by
  induction fuel generalizing w with
  | zero => rfl
  | succ fuel ih =>
    have hturn : turn oldMethods w.bare = (turn oldMethods w).bare := by
      have hfate : fate oldMethods w.bare.scratch.methods w.bare.oi w.bare.ni =
          fate oldMethods w.scratch.methods w.oi w.ni := rfl
      unfold turn
      rw [hfate]
      cases fate oldMethods w.scratch.methods w.oi w.ni with
      | none => rfl
      | some result => exact judge_bare (w.record result.1 result.2) result.1
    unfold walk
    rw [hturn]
    cases turn oldMethods w with
    | done error w' => rfl
    | next w' => exact ih w'

/-! ## When the annotations follow -/

/-- The methods with their numbers, and the numbers that are exchanged, from the methods alone. -/
def renumbering (oldMethods newMethods : List (Method Name Sig)) (count : Nat) :
    Option (List (Method Name Sig) × List (Nat × Nat)) :=
  (walk oldMethods (oldMethods.length + newMethods.length + 1)
    (Walk.start (⟨newMethods, none, none, none, 0⟩ : ScratchClass Name Sig Unit) count)).map
      fun (_, w) => (w.scratch.methods, exchanges count w.fates)

/-- The numbers come from the two lists: that of the old version, or one that was not used. -/
theorem renumbering_normalized {newMethods : List (Method Name Sig)}
    (hgiven : Given oldMethods newMethods)
    (hinitial : ∀ (i : Nat) (m : Method Name Sig), newMethods[i]? = some m → m.idnum = i)
    (hnumbers : OldNumbers oldMethods count) (hcount : count < 2 ^ 16)
    (hallowed : ¬Refused oldMethods newMethods count) : ∃ w : Walk Name Sig Unit,
      renumbering oldMethods newMethods count =
        some (w.scratch.methods, exchanges count w.fates) ∧
      Normalized oldMethods newMethods count w := by
  have hinv := @inv_start Name Sig Unit _ oldMethods count ⟨newMethods, none, none, none, 0⟩
    hgiven hinitial hcount
  obtain ⟨error, w, hwalk, hends⟩ := hinv.walk hgiven hnumbers (Nat.lt_succ_self _)
  have hnone : error = .none := Decidable.of_not_not fun herror => hallowed (hends.refused herror)
  obtain ⟨hinv', hold, hnew⟩ := hends.done hnone
  exact ⟨w, congrArg (Option.map _) hwalk, hinv'.normalized hgiven hold hnew⟩

/-- Each method has the annotations of all kinds that it had. -/
def AnnotationsFollow (k k' : ScratchClass Name Sig T) : Prop :=
  ∀ m ∈ k.methods, ∀ m' ∈ k'.methods, m.key = m'.key →
    k'.getMethodAnnotationsOf m'.idnum = k.getMethodAnnotationsOf m.idnum ∧
    k'.getMethodParameterAnnotationsOf m'.idnum = k.getMethodParameterAnnotationsOf m.idnum ∧
    k'.getMethodDefaultAnnotationsOf m'.idnum = k.getMethodDefaultAnnotationsOf m.idnum

/-- For each method: the parameter and the default annotations under its new number are those
under its old one; so are the annotations, or the default annotations under the number that its
new number is last exchanged with. -/
def AnnotationsAgree (k : ScratchClass Name Sig T) (methods : List (Method Name Sig))
    (pairs : List (Nat × Nat)) : Prop :=
  ∀ m ∈ k.methods, ∀ m' ∈ methods, m.key = m'.key →
    (match lastPartner m'.idnum pairs with
      | some c => k.getMethodDefaultAnnotationsOf c
      | none => k.getMethodAnnotationsOf m'.idnum) = k.getMethodAnnotationsOf m.idnum ∧
    k.getMethodParameterAnnotationsOf m'.idnum = k.getMethodParameterAnnotationsOf m.idnum ∧
    k.getMethodDefaultAnnotationsOf m'.idnum = k.getMethodDefaultAnnotationsOf m.idnum

/-- The annotations follow the methods exactly when the tables agree on what is exchanged. -/
theorem annotationsFollow_iff {k : ScratchClass Name Sig T} {w : Walk Name Sig T}
    (h : walk oldMethods (oldMethods.length + k.methods.length + 1) (Walk.start k count) =
      some (.none, w)) :
    AnnotationsFollow k w.scratch ↔ ∃ methods pairs,
      renumbering oldMethods k.methods count = some (methods, pairs) ∧
        AnnotationsAgree k methods pairs := by
  obtain ⟨fates, hfates, hexchanged⟩ := walk_exchanged h
  have hrenumbering : renumbering oldMethods k.methods count =
      some (w.scratch.methods, exchanges count w.fates) := by
    have hbare := walk_bare oldMethods (oldMethods.length + k.methods.length + 1)
      (Walk.start k count)
    rw [h] at hbare
    unfold renumbering
    exact (congrArg (Option.map _) hbare).trans rfl
  have hagree : AnnotationsFollow k w.scratch ↔
      AnnotationsAgree k w.scratch.methods (exchanges count w.fates) := by
    have hfates' : w.fates = fates := hfates
    rw [hfates']
    refine forall₂_congr fun m _ => forall₂_congr fun m' _ => imp_congr_right fun _ => ?_
    rw [hexchanged.annotations, hexchanged.parameters, hexchanged.defaults]
    exact Iff.rfl
  rw [hrenumbering, hagree]
  constructor
  · exact fun h => ⟨_, _, rfl, h⟩
  · rintro ⟨methods, pairs, heq, h⟩
    obtain ⟨rfl, rfl⟩ := Prod.mk.inj (Option.some.inj heq)
    exact h

end

/-- Two overloads in another order and a method that is added. The overload that has annotations
keeps its number, the others get the numbers 3 and 4. -/
def annotatedOverloads : ScratchClass Nat Nat Nat :=
  { newOverloads with
    methodsAnnotations := some [some 7, none, none]
    methodsParameterAnnotations := some [some 8, none, none]
    methodsDefaultAnnotations := some [some 9, none, none] }

theorem annotationsFollow_iff_overloads :
    ∃ w, walk oldOverloads 6 (Walk.start annotatedOverloads 4) = some (.none, w) ∧
      w.scratch.methods.map (·.idnum) = [3, 0, 4] ∧
      AnnotationsFollow annotatedOverloads w.scratch := by
  refine ⟨_, rfl, rfl,
    (@annotationsFollow_iff _ _ _ _ _ oldOverloads 4 annotatedOverloads _ rfl).mpr
    ⟨_, _, rfl, ?_⟩⟩
  unfold AnnotationsAgree
  decide

/-- A private static method without an old version, with one annotation. -/
def annotatedAdded : ScratchClass Nat Nat Nat where
  methods := [⟨1, 10, 0x000A, 0⟩]
  methodsAnnotations := some [some 7]
  methodsParameterAnnotations := none
  methodsDefaultAnnotations := none
  idnumAllocatedCount := 1

/-- The method that is added loses its annotation. -/
theorem not_annotationsFollow_added :
    ∃ w, walk ([] : List (Method Nat Nat)) 2 (Walk.start annotatedAdded 0) = some (.none, w) ∧
      ¬ AnnotationsFollow annotatedAdded w.scratch := by
  refine ⟨_, rfl, fun h => ?_⟩
  have hlost := (h ⟨1, 10, 0x000A, 0⟩ (by decide) ⟨1, 10, 0x000A, 0⟩ (by decide) rfl).1
  exact absurd hlost (by decide)

end HotSpot.RedefineClasses
