import HotSpot.Prims.MergeBounds

/-! # The constants of a merged pool

What an index denotes, with resolved and unresolved forms taken for one: every index of the old
pool keeps its constant, and an index of the new one is mapped to its own, unless the entry was
passed over for a name that only looks the same.
-/

namespace HotSpot.PoolMerge

/-! ## Constants -/

/-- What an entry says that refers to no others: a class by name and a string by content. -/
inductive Content
  | klass (name : Symbol)
  | string (content : ClassFileParser.Bytes)
  | utf8 (symbol : Symbol)
  | int (value : BitVec 32)
  | float (bits : BitVec 32)
  | long (value : BitVec 64)
  | double (bits : BitVec 64)
  deriving DecidableEq, Repr

def contentOf : CpEntry → Option Content
  | .klass name | .unresolvedKlass name | .unresolvedKlassInError name => some (.klass name)
  | .string content | .unresolvedString content => some (.string content)
  | .utf8 symbol => some (.utf8 symbol)
  | .int value => some (.int value)
  | .float bits => some (.float bits)
  | .long value => some (.long value)
  | .double bits => some (.double bits)
  | _ => none

/-- A constant, with the constants that it refers to. -/
inductive Constant
  | flat (content : Content)
  | pair (tag : ConstantTag) (first second : Constant)
  deriving DecidableEq, Repr

/-- What an index denotes. -/
def constantAt : Nat → Entries → Nat → Option Constant
  | 0, _, _ => none
  | n + 1, cp, i =>
    match indices (entryAt cp i) with
    | some (first, second) =>
      match constantAt n cp first, constantAt n cp second with
      | some a, some b => some (.pair (entryAt cp i).tag a b)
      | _, _ => none
    | none => (contentOf (entryAt cp i)).map .flat

theorem content_of_directAlike {e e' : CpEntry} (hfloating : isFloating e = false)
    (h : directAlike (revert e) e' = true) : contentOf e' = contentOf e := by
  cases e <;> cases e' <;> first
    | cases h
    | (cases hfloating; done)
    | (have heq := beq_iff_eq.mp h; subst heq; rfl)

theorem contentOf_revert (e : CpEntry) : contentOf (revert e) = contentOf e := by
  cases e <;> rfl

section Denoting

variable {scratch merged : Entries} {i p : Nat}

/-- Equal entries denote the same. -/
theorem Built.constantAt_eq (h : Built scratch) (hne : entryAt scratch i ≠ .invalid)
    (hfloating : isFloating (entryAt scratch i) = false)
    (halike : alike depth (scratch.map revert) i merged p = true) :
    constantAt depth merged p = constantAt depth scratch i := by
  refine h.induct (P := fun n i => isFloating (entryAt scratch i) = false → ∀ p,
    alike n (scratch.map revert) i merged p = true →
      constantAt n merged p = constantAt n scratch i)
    (fun n i hnone hne hfloating p halike => ?_)
    (fun n i first second hindices hfirst hsecond _ p halike => ?_) (level_le_two _) hne hfloating
    p halike
  · rw [alike_iff, entryAt_map_revert, indices_revert] at halike
    obtain ⟨-, hnone', hdirect⟩ | ⟨_, _, _, _, hsome, -⟩ := halike
    · rw [constantAt, constantAt, hnone, hnone']
      dsimp only
      rw [content_of_directAlike hfloating hdirect]
    · rw [hnone] at hsome
      cases hsome
  · rw [alike_iff, entryAt_map_revert, indices_revert] at halike
    obtain ⟨hnone, -⟩ | ⟨_, _, a, b, hsome, hindices', htag, halike₁, halike₂⟩ := halike
    · rw [hindices] at hnone
      cases hnone
    · rw [hindices] at hsome
      cases hsome
      obtain ⟨hkind₁, hkind₂⟩ := h.indices hindices
      have htag' : (revert (entryAt scratch i)).tag = (entryAt scratch i).tag := by
        cases hentry : entryAt scratch i <;> rw [hentry] at hindices <;>
          first | rfl | cases hindices
      rw [constantAt, constantAt, hindices, hindices']
      dsimp only
      rw [hfirst (Grows.isFloating_of_referred (hkind₁.imp id Or.inl)) a halike₁,
        hsecond (Grows.isFloating_of_referred (hkind₂.imp id Or.inr)) b halike₂, ← htag, htag']

/-- In a pool that grew from the old one, the old indices denote what they did. -/
theorem constantAt_grown {old new : Entries} (hclosed : Closed old) (n : Nat) {i : Nat}
    (hi : i < old.length) :
    constantAt n (old.map revert ++ new) i = constantAt n old i := by
  have hlength : (old.map revert).length = old.length := List.length_map _
  induction n generalizing i with
  | zero => rfl
  | succ n ih =>
    have hentry : entryAt (old.map revert ++ new) i = revert (entryAt old i) := by
      rw [entryAt_append (hlength ▸ hi), entryAt_map_revert]
    rw [constantAt, constantAt, hentry, indices_revert]
    cases hindices : indices (entryAt old i) with
    | none =>
      dsimp only
      rw [contentOf_revert]
    | some pair =>
      obtain ⟨first, second⟩ := pair
      obtain ⟨hfirst, hsecond⟩ := hclosed i first second hindices
      have htag : (revert (entryAt old i)).tag = (entryAt old i).tag := by
        cases hentry : entryAt old i <;> rw [hentry] at hindices <;>
          first | rfl | cases hindices
      dsimp only
      rw [ih hfirst, ih hsecond, htag]

end Denoting

/-! ## The merge -/

/-- The merged pool is large enough, and two bytes are for its indices. -/
def Fits (old scratch : Entries) : Prop :=
  newSlots (reverted old) scratch ≤ scratch.length ∧
    old.length + newSlots (reverted old) scratch ≤ 2 ^ 16

/-- The indices of the old pool, and the mapped ones of the new pool, denote what they did.
Floating point numbers are left out. -/
structure ConstantsSurvive (old scratch : Entries) (m : Merge) : Prop where
  old : ∀ i < old.length, isFloating (entryAt old i) = false →
    constantAt depth m.entries i = constantAt depth old i
  scratch : ∀ i, entryAt scratch i ≠ .invalid → isFloating (entryAt scratch i) = false →
    constantAt depth m.entries (m.map.newIndex i) = constantAt depth scratch i

/-- An entry that is passed over has the name or string of the old entry at its index, or it is
the class of a reference, which is mapped with it. -/
def PassedOverAlike (old scratch : Entries) : Prop :=
  ∀ i, passedOver (reverted old) scratch i = true →
    contentOf (entryAt scratch i) = contentOf (entryAt old i) ∨ Referenced scratch i

section Merging

variable {base old scratch : Entries} {capacity t i : Nat} {m : Merge}

theorem passedOver_facts (hplain : ∀ k, resolved (entryAt base k) = false)
    (h : passedOver base scratch i = true) : i < base.length ∧
      indices (entryAt scratch i) = none ∧ indices (entryAt base i) = none ∧
      isFloating (entryAt scratch i) = false ∧
      (isKlass (entryAt scratch i) = true → resolved (entryAt scratch i) = true) := by
  have hbase := hplain i
  rw [passedOver, Bool.and_eq_true, decide_eq_true_eq] at h
  obtain ⟨hlt, hmismatch⟩ := h
  refine ⟨hlt, ?_⟩
  cases hentry : entryAt scratch i <;> cases hentry' : entryAt base i <;>
    rw [hentry, hentry'] at hmismatch <;> rw [hentry'] at hbase <;> first
      | cases hmismatch
      | (cases hbase; done)
      | exact ⟨rfl, rfl, rfl, fun hklass => by first | rfl | cases hklass⟩

theorem ne_invalid_of_passedOver (h : passedOver base scratch i = true) :
    entryAt scratch i ≠ .invalid := by
  intro hinvalid
  rw [passedOver, hinvalid] at h
  simp [isUnresolvedClassMismatch, isUnresolvedStringMismatch] at h

/-- In the end an entry of the new pool is at its new index, whatever it is passed over for. -/
theorem Books.constantAt_newIndex {added : Finset Nat} {r : Nat}
    (h : Books base scratch capacity t added r m) (hparsed : Parsed scratch)
    (hplain : ∀ k, resolved (entryAt base k) = false) (ht : scratch.length ≤ t)
    (hne : entryAt scratch i ≠ .invalid) (hfloating : isFloating (entryAt scratch i) = false)
    (hturned : m.map.findNewIndex i ≠ 0 ∨ passedOver base scratch i = false ∨
      Referenced scratch i) :
    constantAt depth m.entries (m.map.newIndex i) = constantAt depth scratch i := by
  have hself := hparsed.selfAlike hne hfloating
  refine hparsed.constantAt_eq hne hfloating ?_
  by_cases hmapped : m.map.findNewIndex i = 0
  · rw [IndexMap.newIndex_of_eq_zero hmapped]
    cases hpassed : passedOver base scratch i with
    | false =>
      exact h.turned i (lt_of_lt_of_le (hparsed.range hne).2 ht) i (self_mem_brought hpassed)
        (Or.inl rfl) hself hmapped
    | true =>
      obtain ⟨k, second, href, hindices⟩ : Referenced scratch i :=
        (hturned.resolve_left (not_not.mpr hmapped)).resolve_left (by simp [hpassed])
      have hkne : entryAt scratch k ≠ .invalid := by
        intro hinvalid
        rw [hinvalid] at href
        cases href
      have hkpassed : passedOver base scratch k = false := by
        refine Bool.eq_false_iff.mpr fun htrue => ?_
        rw [(passedOver_facts hplain htrue).2.1] at hindices
        cases hindices
      have hresolved := (passedOver_facts hplain hpassed).2.2.2.2 (hparsed.ref href hindices).1
      exact h.turned k (lt_of_lt_of_le (hparsed.range hkne).2 ht) i
        (class_mem_brought hkpassed href hindices)
        (Or.inr (Bool.or_eq_true_iff.mpr (Or.inl hresolved))) hself hmapped
  · exact h.map i hself hmapped

theorem merge_of_fits {old scratch : ConstantPool} (hold : Laid old.entries)
    (hclosed : Closed old.entries) (hscratch : Parsed scratch.entries)
    (hfits : Fits old.entries scratch.entries) :
    ∃ m, mergeConstantPools old scratch = .ok m ∧ ∃ t, scratch.entries.length ≤ t ∧ ∃ added,
      Books (reverted old.entries) scratch.entries
        (old.entries.length + scratch.entries.length) t added (refsBefore scratch.entries t) m := by
  obtain ⟨m, hm, t, ht, hkept⟩ := wide_of_slots hold hclosed hscratch hfits.1
  have hlength := hkept.length_eq ht
  have hwidth := hfits.2
  rw [reverted_eq hold, List.length_map, ← reverted_eq hold] at hlength
  obtain ⟨added, hbooks⟩ := hkept.books
  have hcut : ¬Cut m := by
    rintro ⟨i, hi, hge⟩
    have hlt := hbooks.packed i hi
    omega
  exact ⟨m, (mergeConstantPools_eq_ok_iff hcut).mpr hm, t, ht, added, hbooks⟩

/-- A merge that fits ends, and keeps all constants exactly when what is passed over is alike. -/
theorem constantsSurvive_iff {old scratch : ConstantPool} (hold : Laid old.entries)
    (hclosed : Closed old.entries) (hscratch : Parsed scratch.entries)
    (hfits : Fits old.entries scratch.entries) :
    (∃ m, mergeConstantPools old scratch = .ok m ∧
        ConstantsSurvive old.entries scratch.entries m) ↔
      PassedOverAlike old.entries scratch.entries := by
  obtain ⟨m, hm, t, ht, added, h⟩ := merge_of_fits hold hclosed hscratch hfits
  have hplain := (pools_of_parsed hold hclosed hscratch).plain
  have hbase := reverted_eq hold
  have hpassed : ∀ {m t added r}, Books (reverted old.entries) scratch.entries
      (old.entries.length + scratch.entries.length) t added r m → ∀ i,
      passedOver (reverted old.entries) scratch.entries i = true →
        constantAt depth m.entries i = (contentOf (entryAt old.entries i)).map .flat ∧
        constantAt depth scratch.entries i = (contentOf (entryAt scratch.entries i)).map .flat := by
    intro m t added r h i hi
    obtain ⟨hlt, hnone, hnone', -⟩ := passedOver_facts hplain hi
    obtain ⟨new, hnew⟩ := h.grown
    rw [hbase, entryAt_map_revert, indices_revert] at hnone'
    rw [hbase, List.length_map] at hlt
    rw [hnew, hbase, constantAt_grown hclosed _ hlt, constantAt, constantAt, hnone, hnone']
    exact ⟨rfl, rfl⟩
  constructor
  · rintro ⟨m', hm', hsurvive⟩ i hi
    obtain rfl : m = m' := Except.ok.inj (hm.symm.trans hm')
    by_cases hmapped : m.map.findNewIndex i = 0
    · obtain ⟨-, hnone, -, hfloating, -⟩ := passedOver_facts hplain hi
      have hsame := hsurvive.scratch i (ne_invalid_of_passedOver hi) hfloating
      rw [IndexMap.newIndex_of_eq_zero hmapped, (hpassed h i hi).1, (hpassed h i hi).2] at hsame
      have hinjective : Function.Injective Constant.flat := fun a b hab => by cases hab; rfl
      exact Or.inl (Option.map_injective hinjective hsame).symm
    · refine Or.inr ((h.mine i hmapped).resolve_left ?_)
      rw [hi]
      exact Bool.true_eq_false.mp
  · intro halike
    refine ⟨m, hm, fun i hi _ => ?_, fun i hne hfloating => ?_⟩
    · obtain ⟨new, hnew⟩ := h.grown
      rw [hnew, hbase, constantAt_grown hclosed _ hi]
    · by_cases hmine : m.map.findNewIndex i ≠ 0 ∨
          passedOver (reverted old.entries) scratch.entries i = false ∨
          Referenced scratch.entries i
      · exact h.constantAt_newIndex hscratch hplain ht hne hfloating hmine
      · push Not at hmine
        obtain ⟨hzero, hi, href⟩ := hmine
        have hi : passedOver (reverted old.entries) scratch.entries i = true := by simpa using hi
        rw [IndexMap.newIndex_of_eq_zero hzero, (hpassed h i hi).1, (hpassed h i hi).2,
          (halike i hi).resolve_right href]

end Merging

/-- A reference to a resolved class in the new pool. -/
theorem constantsSurvive_iff_oneReference :
    (∃ m, mergeConstantPools oneSymbol oneReference = .ok m ∧
        ConstantsSurvive oneSymbol.entries oneReference.entries m) ↔
      PassedOverAlike oneSymbol.entries oneReference.entries :=
  constantsSurvive_iff laid_oneSymbol closed_oneSymbol parsed_oneReference
    ⟨by decide, by decide⟩

/-- A resolved class of the new pool, where the old one has a class whose name goes on behind
a zero byte. -/
theorem not_constantsSurvive_zeroByte :
    ¬∃ m, mergeConstantPools ⟨[.invalid, .unresolvedKlass [65, 0, 66], .utf8 [65, 0, 66]], none⟩
        ⟨[.invalid, .klass [65], .utf8 [65]], none⟩ = .ok m ∧
      ConstantsSurvive [.invalid, .unresolvedKlass [65, 0, 66], .utf8 [65, 0, 66]]
        [.invalid, .klass [65], .utf8 [65]] m := by
  rintro ⟨m, hm, h⟩
  cases hm
  exact absurd (h.scratch 1 (by decide) rfl) (by decide)

end HotSpot.PoolMerge
