import HotSpot.Lib.Simulation
import HotSpot.Prims.MergeFloats

/-! # Entries that compare equal

The comparison of entries as a relation, which is symmetric and transitive: what it says of two
entries, how far it looks, and what becomes of it when a pool grows or its classes are reverted.
-/

namespace HotSpot.PoolMerge

def directAlike (e e' : CpEntry) : Bool :=
  match compareDirect e e' with
  | .ok same => same
  | .error _ => false

/-- What `compare_entry_to` finds when it does not stop. -/
def alike : Nat → Entries → Nat → Entries → Nat → Bool
  | 0, _, _, _, _ => false
  | n + 1, cp, i, cp', i' =>
    match indices (entryAt cp i), indices (entryAt cp' i') with
    | some (first, second), some (first', second') =>
      (entryAt cp i).tag = (entryAt cp' i').tag && alike n cp first cp' first' &&
        alike n cp second cp' second'
    | none, none => directAlike (entryAt cp i) (entryAt cp' i')
    | _, _ => false

/-- An entry that refers no deeper than `n` entries. -/
def Deep : Nat → Entries → Nat → Prop
  | 0, _, _ => False
  | n + 1, cp, i => entryAt cp i ≠ .invalid ∧
      ∀ first second, indices (entryAt cp i) = some (first, second) →
        Deep n cp first ∧ Deep n cp second

theorem compareDirect_eq {e e' : CpEntry} (h : e ≠ .invalid) :
    compareDirect e e' = .ok (directAlike e e') := by
  cases e <;> first | exact absurd rfl h | (cases e' <;> rfl)

theorem directAlike_of_indices {e e' : CpEntry} (h : ¬(indices e = none ∧ indices e' = none)) :
    directAlike e e' = false := by
  cases e <;> cases e' <;> first | rfl | exact absurd ⟨rfl, rfl⟩ h

theorem compareEntryTo_eq {n : Nat} {cp cp' : Entries} {i : Nat} (h : Deep n cp i) (i' : Nat) :
    compareEntryTo n cp i cp' i' = .ok (alike n cp i cp' i') := by
  induction n generalizing i i' with
  | zero => exact h.elim
  | succ n ih =>
    unfold compareEntryTo alike
    cases hindices : indices (entryAt cp i) with
    | none =>
      cases hindices' : indices (entryAt cp' i') with
      | none => exact compareDirect_eq h.1
      | some pair =>
        exact (compareDirect_eq h.1).trans (congrArg _ (directAlike_of_indices
          (by simp [hindices'])))
    | some pair =>
      obtain ⟨first, second⟩ := pair
      obtain ⟨hfirst, hsecond⟩ := h.2 first second hindices
      cases hindices' : indices (entryAt cp' i') with
      | none =>
        exact (compareDirect_eq h.1).trans (congrArg _ (directAlike_of_indices
          (by simp [hindices])))
      | some pair' =>
        obtain ⟨first', second'⟩ := pair'
        dsimp only
        split
        next htag =>
          rw [ih hfirst first', bind_ok]
          cases halike : alike n cp first cp' first' with
          | true => simp [htag, ih hsecond second']
          | false => simp [htag]; rfl
        next htag => simp [htag]

/-- Two entries are equal in themselves, or refer to equal entries. -/
theorem alike_iff {n : Nat} {cp cp' : Entries} {i i' : Nat} :
    alike (n + 1) cp i cp' i' = true ↔
      indices (entryAt cp i) = none ∧ indices (entryAt cp' i') = none ∧
          directAlike (entryAt cp i) (entryAt cp' i') = true ∨
        ∃ first second first' second', indices (entryAt cp i) = some (first, second) ∧
          indices (entryAt cp' i') = some (first', second') ∧
          (entryAt cp i).tag = (entryAt cp' i').tag ∧ alike n cp first cp' first' = true ∧
          alike n cp second cp' second' = true := by
  rw [alike]
  cases indices (entryAt cp i) with
  | none => cases indices (entryAt cp' i') <;> simp
  | some pair =>
    cases indices (entryAt cp' i') with
    | none => simp
    | some pair' =>
      obtain ⟨first, second⟩ := pair
      obtain ⟨first', second'⟩ := pair'
      simp [and_assoc]

/-! ## An equivalence -/

theorem directAlike_symm {e e' : CpEntry} (h : directAlike e e' = true) :
    directAlike e' e = true := by
  cases e <;> cases e' <;> try cases h
  all_goals first
    | exact floatingEq_symm h
    | exact beq_iff_eq.mpr (beq_iff_eq.mp h).symm

theorem directAlike_trans {e e' e'' : CpEntry} (h : directAlike e e' = true)
    (h' : directAlike e' e'' = true) : directAlike e e'' = true := by
  cases e <;> cases e' <;> try cases h
  all_goals cases e'' <;> try cases h'
  all_goals first
    | exact floatingEq_trans h h'
    | exact beq_iff_eq.mpr ((beq_iff_eq.mp h).trans (beq_iff_eq.mp h'))

theorem alike_symm {n : Nat} {cp cp' : Entries} {i i' : Nat} (h : alike n cp i cp' i' = true) :
    alike n cp' i' cp i = true := by
  induction n generalizing i i' with
  | zero => cases h
  | succ n ih =>
    rw [alike_iff] at h ⊢
    obtain ⟨hi, hi', hdirect⟩ | ⟨a, b, a', b', hi, hi', htag, hfirst, hsecond⟩ := h
    · exact Or.inl ⟨hi', hi, directAlike_symm hdirect⟩
    · exact Or.inr ⟨a', b', a, b, hi', hi, htag.symm, ih hfirst, ih hsecond⟩

theorem alike_trans {n : Nat} {cp cp' cp'' : Entries} {i i' i'' : Nat}
    (h : alike n cp i cp' i' = true) (h' : alike n cp' i' cp'' i'' = true) :
    alike n cp i cp'' i'' = true := by
  induction n generalizing i i' i'' with
  | zero => cases h
  | succ n ih =>
    rw [alike_iff] at h h' ⊢
    obtain ⟨hi, hi', hdirect⟩ | ⟨a, b, a', b', hi, hi', htag, hfirst, hsecond⟩ := h
    · obtain ⟨-, hi'', hdirect'⟩ | ⟨_, _, _, _, hsome, _⟩ := h'
      · exact Or.inl ⟨hi, hi'', directAlike_trans hdirect hdirect'⟩
      · rw [hi'] at hsome; cases hsome
    · obtain ⟨hnone, _⟩ | ⟨_, _, a'', b'', hsome, hi'', htag', hfirst', hsecond'⟩ := h'
      · rw [hi'] at hnone; cases hnone
      · rw [hi'] at hsome
        cases hsome
        exact Or.inr ⟨a, b, a'', b'', hi, hi'', htag.trans htag', ih hfirst hfirst',
          ih hsecond hsecond'⟩

/-! ## What equal entries share -/

def resolved : CpEntry → Bool
  | .klass _ => true
  | _ => false

/-- How many steps an entry refers to others. -/
def level (e : CpEntry) : Nat :=
  if isRef e then 2 else if isNameAndType e then 1 else 0

/-- Classes and references. -/
def isClassOrRef : CpEntry → Bool
  | .klass _ | .unresolvedKlass _ | .unresolvedKlassInError _ => true
  | e => isRef e

/-- What two entries of one kind agree on. -/
structure SameKind (e e' : CpEntry) : Prop where
  resolved : resolved e = resolved e'
  level : level e = level e'
  width : width e = width e'
  isRef : isRef e = isRef e'
  isClassOrRef : isClassOrRef e = isClassOrRef e'

theorem sameKind_of_directAlike {e e' : CpEntry} (h : directAlike e e' = true) :
    SameKind e e' := by
  cases e <;> cases e' <;> first | exact ⟨rfl, rfl, rfl, rfl, rfl⟩ | cases h

theorem sameKind_of_tag {e e' : CpEntry} (h : e.tag = e'.tag) : SameKind e e' := by
  cases e <;> cases e' <;> first | exact ⟨rfl, rfl, rfl, rfl, rfl⟩ | cases h

theorem sameKind_of_alike {n : Nat} {cp cp' : Entries} {i i' : Nat}
    (h : alike n cp i cp' i' = true) : SameKind (entryAt cp i) (entryAt cp' i') := by
  cases n with
  | zero => cases h
  | succ n =>
    obtain ⟨-, -, hdirect⟩ | ⟨_, _, _, _, -, -, htag, -⟩ := alike_iff.mp h
    · exact sameKind_of_directAlike hdirect
    · exact sameKind_of_tag htag

theorem directAlike_invalid (e : CpEntry) : directAlike e .invalid = false := by
  cases e <;> rfl

theorem ne_invalid_of_alike {n : Nat} {cp cp' : Entries} {i i' : Nat}
    (h : alike n cp i cp' i' = true) : entryAt cp' i' ≠ .invalid := by
  intro heq
  cases n with
  | zero => cases h
  | succ n =>
    obtain ⟨-, -, hdirect⟩ | ⟨_, _, _, _, -, hi', -⟩ := alike_iff.mp h
    · rw [heq, directAlike_invalid] at hdirect
      cases hdirect
    · rw [heq] at hi'
      cases hi'

/-- There is an equal entry only where the pool has one. -/
theorem lt_of_alike {n : Nat} {cp cp' : Entries} {i i' : Nat} (h : alike n cp i cp' i' = true) :
    i' < cp'.length := by
  by_contra hge
  exact ne_invalid_of_alike h (entryAt_beyond (not_lt.mp hge))

/-! ## Depth -/

/-- To look deeper than an entry refers makes no difference. -/
theorem alike_succ {n : Nat} {cp cp' : Entries} {i : Nat} (h : Deep n cp i) (i' : Nat) :
    alike (n + 1) cp i cp' i' = alike n cp i cp' i' := by
  induction n generalizing i i' with
  | zero => exact h.elim
  | succ n ih =>
    rw [Bool.eq_iff_iff, alike_iff, alike_iff]
    refine or_congr Iff.rfl ⟨?_, ?_⟩
    · rintro ⟨a, b, a', b', hi, hi', htag, hfirst, hsecond⟩
      rw [ih (h.2 a b hi).1] at hfirst
      rw [ih (h.2 a b hi).2] at hsecond
      exact ⟨a, b, a', b', hi, hi', htag, hfirst, hsecond⟩
    · rintro ⟨a, b, a', b', hi, hi', htag, hfirst, hsecond⟩
      rw [← ih (h.2 a b hi).1] at hfirst
      rw [← ih (h.2 a b hi).2] at hsecond
      exact ⟨a, b, a', b', hi, hi', htag, hfirst, hsecond⟩

/-! ## A pool that grows -/

/-- The entries refer to entries of the pool. -/
def Closed (entries : Entries) : Prop :=
  ∀ i first second, indices (entryAt entries i) = some (first, second) →
    first < entries.length ∧ second < entries.length

/-- Entries that are added do not change what is equal. -/
theorem alike_append {n : Nat} {cp cp' : Entries} {i i' : Nat} (new : Entries)
    (hclosed : Closed cp') (hlt : i' < cp'.length) :
    alike n cp i (cp' ++ new) i' = alike n cp i cp' i' := by
  induction n generalizing i i' with
  | zero => rfl
  | succ n ih =>
    rw [alike, alike, entryAt_append hlt]
    cases indices (entryAt cp i) with
    | none => cases indices (entryAt cp' i') <;> rfl
    | some pair =>
      cases hindices' : indices (entryAt cp' i') with
      | none => rfl
      | some pair' =>
        obtain ⟨hfirst, hsecond⟩ := hclosed i' pair'.1 pair'.2 hindices'
        dsimp only
        rw [ih hfirst, ih hsecond]

/-! ## Reverted classes -/

theorem indices_revert (e : CpEntry) : indices (revert e) = indices e := by
  cases e <;> rfl

theorem revert_of_not_resolved {e : CpEntry} (h : resolved e = false) : revert e = e := by
  cases e <;> first | rfl | cases h

theorem resolved_revert (e : CpEntry) : resolved (revert e) = false := by
  cases e <;> rfl

theorem isClassOrRef_revert (e : CpEntry) : isClassOrRef (revert e) = isClassOrRef e := by
  cases e <;> rfl

theorem level_revert (e : CpEntry) : level (revert e) = level e := by
  cases e <;> rfl

/-- An entry that is not resolved and refers to no resolved class. -/
def Plain : Nat → Entries → Nat → Prop
  | 0, _, _ => True
  | n + 1, cp, i => resolved (entryAt cp i) = false ∧
      ∀ first second, indices (entryAt cp i) = some (first, second) →
        Plain n cp first ∧ Plain n cp second

theorem alike_revert {n : Nat} {cp cp' : Entries} {i : Nat} (h : Plain n cp i) (i' : Nat) :
    alike n (cp.map revert) i cp' i' = alike n cp i cp' i' := by
  induction n generalizing i i' with
  | zero => rfl
  | succ n ih =>
    rw [alike, alike, entryAt_map_revert, revert_of_not_resolved h.1]
    cases hindices : indices (entryAt cp i) with
    | none => cases indices (entryAt cp' i') <;> rfl
    | some pair =>
      cases indices (entryAt cp' i') with
      | none => rfl
      | some pair' =>
        obtain ⟨hfirst, hsecond⟩ := h.2 pair.1 pair.2 hindices
        dsimp only
        rw [ih hfirst, ih hsecond]

theorem Deep.revert {n : Nat} {cp : Entries} {i : Nat} (h : Deep n cp i) :
    Deep n (cp.map revert) i := by
  induction n generalizing i with
  | zero => exact h.elim
  | succ n ih =>
    unfold Deep
    rw [entryAt_map_revert, indices_revert]
    refine ⟨fun heq => h.1 ?_, fun first second hindices =>
      ⟨ih (h.2 first second hindices).1, ih (h.2 first second hindices).2⟩⟩
    cases hentry : entryAt cp i <;> rw [hentry] at heq <;> cases heq

end HotSpot.PoolMerge
