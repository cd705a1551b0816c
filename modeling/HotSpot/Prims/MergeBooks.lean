import HotSpot.Prims.MergeAlike
import Mathlib.Algebra.BigOperators.Group.Finset.Basic
import Mathlib.Algebra.Order.BigOperators.Group.Finset

/-! # What a merge adds

Which constants of the new pool are added to the merged one, how many entries that takes, and
the invariant that says so between the turns of the passes. A resolved class is never found
again, since the merged pool has none, and each reference to it adds it once more.
-/

namespace HotSpot.PoolMerge

open Finset

/-! ## Pools of class files -/

/-- A pool as the class file parser builds it, none of whose classes is in error. -/
structure Parsed (entries : Entries) : Prop extends Built entries where
  class_ok : ∀ i name, entryAt entries i ≠ .unresolvedKlassInError name

theorem indices_of_isUtf8 {e : CpEntry} (h : isUtf8 e = true) :
    indices e = none ∧ e ≠ .invalid ∧ resolved e = false ∧ level e = 0 := by
  cases e <;> first | (cases h; done) | exact ⟨rfl, by simp, rfl, rfl⟩

theorem indices_of_isKlass {e : CpEntry} (h : isKlass e = true) :
    indices e = none ∧ e ≠ .invalid ∧ level e = 0 := by
  cases e <;> first | (cases h; done) | exact ⟨rfl, by simp, rfl⟩

theorem level_of_isNameAndType {e : CpEntry} (h : isNameAndType e = true) :
    level e = 1 ∧ resolved e = false ∧ e ≠ .invalid := by
  cases e <;> first | (cases h; done) | exact ⟨rfl, rfl, by simp⟩

theorem isRef_of_indices {e : CpEntry} {pair : Nat × Nat} (h : indices e = some pair) :
    isRef e = true ∨ e = .nameAndType pair.1 pair.2 := by
  cases e <;> first | exact Or.inl rfl | (cases h; exact Or.inr rfl) | cases h

section BuiltPools

variable {entries : Entries} {i first second : Nat}

theorem Built.level_lt (h : Built entries)
    (hindices : PoolMerge.indices (entryAt entries i) = some (first, second)) :
    level (entryAt entries first) < level (entryAt entries i) ∧
      level (entryAt entries second) < level (entryAt entries i) := by
  rcases isRef_of_indices hindices with href | hentry
  · obtain ⟨hklass, hsecond⟩ := h.ref href hindices
    rw [(indices_of_isKlass hklass).2.2, (level_of_isNameAndType hsecond).1, level, if_pos href]
    exact ⟨Nat.two_pos, Nat.one_lt_two⟩
  · obtain ⟨hname, hsignature⟩ := h.nameAndType hentry
    rw [(indices_of_isUtf8 hname).2.2.2, (indices_of_isUtf8 hsignature).2.2.2, hentry]
    exact ⟨Nat.one_pos, Nat.one_pos⟩

theorem Built.ne_invalid (h : Built entries)
    (hindices : PoolMerge.indices (entryAt entries i) = some (first, second)) :
    entryAt entries first ≠ .invalid ∧ entryAt entries second ≠ .invalid := by
  obtain ⟨hfirst, hsecond⟩ := h.indices hindices
  exact ⟨hfirst.elim (fun hutf8 => (indices_of_isUtf8 hutf8).2.1)
      (fun hklass => (indices_of_isKlass hklass).2.1),
    hsecond.elim (fun hutf8 => (indices_of_isUtf8 hutf8).2.1)
      (fun hpair => (level_of_isNameAndType hpair).2.2)⟩

/-- Induction over what an entry refers to. -/
theorem Built.induct (h : Built entries) {P : Nat → Nat → Prop}
    (flat : ∀ n i, PoolMerge.indices (entryAt entries i) = none →
      entryAt entries i ≠ .invalid → P (n + 1) i)
    (pair : ∀ n i first second, PoolMerge.indices (entryAt entries i) = some (first, second) →
      P n first → P n second → P (n + 1) i)
    {n : Nat} (hle : level (entryAt entries i) ≤ n) (hne : entryAt entries i ≠ .invalid) :
    P (n + 1) i := by
  induction n generalizing i with
  | zero =>
    cases hindices : PoolMerge.indices (entryAt entries i) with
    | none => exact flat 0 i hindices hne
    | some p =>
      obtain ⟨first, second⟩ := p
      obtain ⟨hlt, -⟩ := h.level_lt hindices
      omega
  | succ n ih =>
    cases hindices : PoolMerge.indices (entryAt entries i) with
    | none => exact flat (n + 1) i hindices hne
    | some p =>
      obtain ⟨first, second⟩ := p
      obtain ⟨hfirst, hsecond⟩ := h.level_lt hindices
      obtain ⟨hfirst', hsecond'⟩ := h.ne_invalid hindices
      exact pair (n + 1) i first second hindices (ih (by omega) hfirst')
        (ih (by omega) hsecond')

theorem Built.deep (h : Built entries) {n : Nat} (hle : level (entryAt entries i) ≤ n)
    (hne : entryAt entries i ≠ .invalid) : Deep (n + 1) entries i := by
  refine h.induct (P := fun n i => Deep n entries i) (fun n i hnone hne => ?_)
    (fun n i first second hindices hfirst hsecond => ?_) hle hne
  · refine ⟨hne, fun _ _ hsome => ?_⟩
    rw [hnone] at hsome
    cases hsome
  · refine ⟨fun hinvalid => ?_, fun a b hab => ?_⟩
    · rw [hinvalid] at hindices
      cases hindices
    · rw [hindices] at hab
      cases hab
      exact ⟨hfirst, hsecond⟩

theorem level_le_two (e : CpEntry) : level e ≤ 2 := by
  unfold level
  split
  · exact le_rfl
  · split <;> decide

theorem Built.deep_depth {entries : Entries} (h : Built entries) {i : Nat}
    (hne : entryAt entries i ≠ .invalid) : Deep depth entries i :=
  h.deep (level_le_two _) hne

theorem directAlike_revert_self {e : CpEntry} (hnone : PoolMerge.indices e = none)
    (hne : e ≠ .invalid) (hfloating : isFloating e = false) :
    directAlike (revert e) (revert e) = true := by
  cases e <;> first
    | exact absurd rfl hne
    | (cases hfloating; done)
    | (cases hnone; done)
    | exact beq_self_eq_true _

end BuiltPools

/-! ## What is added -/

/-- A reference to a resolved class. -/
def toResolved (cp : Entries) (i : Nat) : Bool :=
  match indices (entryAt cp i) with
  | some (klass, _) => isRef (entryAt cp i) && resolved (entryAt cp klass)
  | none => false

/-- What no entry of a pool without resolved classes equals. -/
def renewed (cp : Entries) (i : Nat) : Bool := resolved (entryAt cp i) || toResolved cp i

/-- The turn of an entry whose only difference to the old one is its resolution is empty. -/
def passedOver (base scratch : Entries) (i : Nat) : Bool :=
  decide (i < base.length) &&
    (isUnresolvedClassMismatch (entryAt scratch i) (entryAt base i) ||
      isUnresolvedStringMismatch (entryAt scratch i) (entryAt base i))

/-- What the turn of an entry puts into the merged pool if it is not there: the entry, and the
class of a reference. -/
def brought (base scratch : Entries) (i : Nat) : List Nat :=
  if passedOver base scratch i then []
  else
    match indices (entryAt scratch i) with
    | some (klass, _) => if isRef (entryAt scratch i) then [i, klass] else [i]
    | none => [i]

/-- An entry for which a new one is made, apart from the classes that references add once more:
the old pool has no equal one, and either no pool without resolved classes has, or it is the
first of its equals and no resolved class has put the same constant there before them. -/
def Counted (base scratch : Entries) (k : Nat) : Prop :=
  entryAt scratch k ≠ .invalid ∧ passedOver base scratch k = false ∧
    (∀ old < base.length, alike depth scratch k base old = false) ∧
    (renewed scratch k = true ∨
      (∀ j < k, passedOver base scratch j = false → alike depth scratch j scratch k = false) ∧
      ∀ i < scratch.length,
        (∃ x ∈ brought base scratch i, alike depth (scratch.map revert) x scratch k = true) →
        ∃ j < i + 1, ∃ x ∈ brought base scratch j, alike depth scratch x scratch k = true)

instance (base scratch : Entries) (k : Nat) : Decidable (Counted base scratch k) := by
  delta Counted
  infer_instance

/-- The entries that the merged pool has beyond the old one. -/
def newSlots (base scratch : Entries) : Nat :=
  ∑ k ∈ range scratch.length, ((if Counted base scratch k then width (entryAt scratch k) else 0) +
    if toResolved scratch k then 1 else 0)

/-- The merge ends within the pool that is allocated for it, and all the indices it records and
packs have two bytes. -/
def InBounds (old scratch : ConstantPool) : Prop :=
  ∃ m, mergeConstantPools old scratch = .ok m ∧ (∀ value ∈ m.map.values, value < 2 ^ 16) ∧
    ∀ i ∈ m.packed, i < 2 ^ 16

/-! ## What is found again -/

section Found

variable {scratch merged : Entries} {i k : Nat}

theorem toResolved_eq (klass nameAndType : Nat)
    (h : indices (entryAt scratch i) = some (klass, nameAndType)) :
    toResolved scratch i = (isRef (entryAt scratch i) && resolved (entryAt scratch klass)) := by
  rw [toResolved, h]

theorem renewed_of_alike (h : alike depth scratch i merged k = true) :
    renewed scratch i = renewed merged k := by
  have hkind := sameKind_of_alike h
  have hto : toResolved scratch i = toResolved merged k := by
    obtain ⟨hi, hk, -⟩ | ⟨klass, _, klass', _, hi, hk, -, hklass, -⟩ := alike_iff.mp h
    · rw [toResolved, toResolved, hi, hk]
    · rw [toResolved_eq _ _ hi, toResolved_eq _ _ hk, hkind.isRef,
        (sameKind_of_alike hklass).resolved]
  rw [renewed, renewed, hkind.resolved, hto]

theorem isClassOrRef_of_renewed (h : renewed scratch i = true) :
    isClassOrRef (entryAt scratch i) = true := by
  unfold renewed toResolved at h
  cases hentry : entryAt scratch i with
  | klass _ | field _ _ | method _ _ | interfaceMethod _ _ => rfl
  | _ => simp [hentry, resolved, indices, isRef] at h

theorem renewed_eq_false (hplain : ∀ k, resolved (entryAt merged k) = false) (k : Nat) :
    renewed merged k = false := by
  unfold renewed toResolved
  rw [hplain]
  cases indices (entryAt merged k) with
  | none => rfl
  | some pair => simp [hplain]

theorem toResolved_of_not_isRef (h : isRef (entryAt scratch i) = false) :
    toResolved scratch i = false := by
  unfold toResolved
  split
  · rw [h]; rfl
  · rfl

theorem not_isRef_of_level_lt {e : CpEntry} (h : level e < 2) : isRef e = false := by
  unfold level at h
  split at h
  · omega
  · exact Bool.eq_false_iff.mpr ‹_›

theorem Built.not_renewed (h : Built scratch) {first second : Nat}
    (hindices : PoolMerge.indices (entryAt scratch i) = some (first, second))
    (hi : renewed scratch i = false) :
    renewed scratch first = false ∧ renewed scratch second = false := by
  obtain ⟨hfirst, hsecond⟩ := h.level_lt hindices
  have hle := level_le_two (entryAt scratch i)
  rw [renewed, Bool.or_eq_false_iff] at hi
  rw [renewed, renewed, toResolved_of_not_isRef (not_isRef_of_level_lt (by omega)),
    toResolved_of_not_isRef (not_isRef_of_level_lt (by omega)), Bool.or_false, Bool.or_false]
  rcases isRef_of_indices hindices with href | hentry
  · have hto := hi.2
    rw [toResolved_eq _ _ hindices, href] at hto
    exact ⟨hto, (level_of_isNameAndType (h.ref href hindices).2).2.1⟩
  · exact ⟨(indices_of_isUtf8 (h.nameAndType hentry).1).2.2.1,
      (indices_of_isUtf8 (h.nameAndType hentry).2).2.2.1⟩

theorem Built.plain (h : Built scratch) (hi : renewed scratch i = false) :
    Plain depth scratch i := by
  by_cases hne : entryAt scratch i = .invalid
  · refine ⟨by rw [hne]; rfl, fun _ _ hsome => ?_⟩
    rw [hne] at hsome
    cases hsome
  · refine h.induct (P := fun n i => renewed scratch i = false → Plain n scratch i)
      (fun n i hnone _ hi => ?_) (fun n i first second hindices hfirst hsecond hi => ?_)
      (level_le_two _) hne hi
    · refine ⟨(Bool.or_eq_false_iff.mp hi).1, fun _ _ hsome => ?_⟩
      rw [hnone] at hsome
      cases hsome
    · refine ⟨(Bool.or_eq_false_iff.mp hi).1, fun a b hab => ?_⟩
      rw [hindices] at hab
      cases hab
      obtain ⟨hfirst', hsecond'⟩ := h.not_renewed hindices hi
      exact ⟨hfirst hfirst', hsecond hsecond'⟩

/-- In a pool without resolved classes only what is not renewed is found. -/
theorem alike_eq (h : Built scratch) (hplain : ∀ k, resolved (entryAt merged k) = false) :
    alike depth scratch i merged k =
      (!renewed scratch i && alike depth (scratch.map revert) i merged k) := by
  cases hrenewed : renewed scratch i with
  | false => rw [alike_revert (h.plain hrenewed)]; rfl
  | true =>
    cases halike : alike depth scratch i merged k with
    | false => rfl
    | true =>
      rw [renewed_of_alike halike, renewed_eq_false hplain] at hrenewed
      cases hrenewed

/-- The merged pool has the constant, with its classes not resolved. -/
def Held (scratch merged : Entries) (i : Nat) : Prop :=
  ∃ k, alike depth (scratch.map revert) i merged k = true

/-- A constant equals itself, unless it is a NaN. -/
def SelfAlike (scratch : Entries) (i : Nat) : Prop :=
  alike depth (scratch.map revert) i (scratch.map revert) i = true

theorem Held.selfAlike (h : Held scratch merged i) : SelfAlike scratch i := by
  obtain ⟨k, hk⟩ := h
  exact alike_trans hk (alike_symm hk)

theorem selfAlike_of_alike {cp : Entries}
    (h : alike depth (scratch.map revert) i cp k = true) : SelfAlike scratch i :=
  alike_trans h (alike_symm h)

theorem selfAlike_of_plain (h : Built scratch) {cp : Entries} (hi : renewed scratch i = false)
    (halike : alike depth scratch i cp k = true) : SelfAlike scratch i := by
  rw [← alike_revert (h.plain hi)] at halike
  exact selfAlike_of_alike halike

/-- Of equal entries that are not renewed, the merged pool has both or none. -/
theorem Held.of_alike (h : Built scratch) (hheld : Held scratch merged i)
    (hi : renewed scratch i = false) (halike : alike depth scratch i scratch k = true) :
    Held scratch merged k := by
  obtain ⟨p, hp⟩ := hheld
  have hk : renewed scratch k = false := (renewed_of_alike halike).symm.trans hi
  rw [alike_revert (h.plain hi)] at hp
  refine ⟨p, ?_⟩
  rw [alike_revert (h.plain hk)]
  exact alike_trans (alike_symm halike) hp

/-- What a renewed constant puts into the merged pool is found for an equal one. -/
theorem Held.of_alike_revert (h : Built scratch) (hheld : Held scratch merged i)
    (hk : renewed scratch k = false)
    (halike : alike depth (scratch.map revert) i scratch k = true) : Held scratch merged k := by
  obtain ⟨p, hp⟩ := hheld
  refine ⟨p, ?_⟩
  rw [alike_revert (h.plain hk)]
  exact alike_trans (alike_symm halike) hp

end Found

theorem mem_brought {base scratch : Entries} {i x : Nat} (h : x ∈ brought base scratch i) :
    passedOver base scratch i = false ∧ (x = i ∨ isRef (entryAt scratch i) = true ∧
      ∃ second, indices (entryAt scratch i) = some (x, second)) := by
  unfold brought at h
  split at h
  next => cases h
  next hpassed =>
    refine ⟨Bool.eq_false_iff.mpr hpassed, ?_⟩
    split at h
    next klass second hindices =>
      split at h
      next href =>
        rcases List.mem_cons.mp h with rfl | h
        · exact Or.inl rfl
        · exact Or.inr ⟨href, second, by rwa [List.mem_singleton.mp h]⟩
      next => exact Or.inl (List.mem_singleton.mp h)
    next => exact Or.inl (List.mem_singleton.mp h)

theorem self_mem_brought {base scratch : Entries} {i : Nat}
    (h : passedOver base scratch i = false) : i ∈ brought base scratch i := by
  unfold brought
  rw [if_neg (by simp [h])]
  split
  next => split <;> simp
  next => simp

theorem class_mem_brought {base scratch : Entries} {i klass second : Nat}
    (h : passedOver base scratch i = false) (href : isRef (entryAt scratch i) = true)
    (hindices : indices (entryAt scratch i) = some (klass, second)) :
    klass ∈ brought base scratch i := by
  unfold brought
  rw [if_neg (by simp [h]), hindices]
  simp [href]

/-! ## The merged pool -/

/-- The pools of a merge, the old one with its classes reverted. -/
structure Pools (base scratch : Entries) : Prop where
  parsed : Parsed scratch
  pos : 0 < base.length
  first : entryAt base 0 = .invalid
  closed : Closed base
  plain : ∀ k, resolved (entryAt base k) = false

/-- The class of a reference. -/
def Referenced (scratch : Entries) (i : Nat) : Prop :=
  ∃ k second, isRef (entryAt scratch k) = true ∧ indices (entryAt scratch k) = some (i, second)

/-- The merged pool so far: the old entries and more, and an index map into it that keeps the
constants. -/
structure Frame (base scratch : Entries) (capacity : Nat) (m : Merge) : Prop where
  grown : ∃ new, m.entries = base ++ new
  length : m.length = capacity
  fits : m.entries.length ≤ capacity
  pos : 0 < m.entries.length
  first : entryAt m.entries 0 = .invalid
  plain : ∀ k, resolved (entryAt m.entries k) = false
  closed : Closed m.entries
  mapped : Mapped scratch.length m.map
  map : ∀ k, SelfAlike scratch k → m.map.findNewIndex k ≠ 0 →
    alike depth (scratch.map revert) k m.entries (m.map.newIndex k) = true
  mine : ∀ k : Nat, m.map.findNewIndex k ≠ 0 →
    passedOver base scratch k = false ∨ Referenced scratch k
  values : ∀ value ∈ m.map.values, value < m.entries.length
  packed : ∀ i ∈ m.packed, i < m.entries.length

section Frames

variable {base scratch : Entries} {capacity i : Nat} {m m' : Merge}

/-- The index `i` is mapped to `k`, unless it is mapped already or `k` is the index itself, and no
other is. -/
structure Remaps (i k : Nat) (map map' : IndexMap) : Prop where
  unmapped : ∀ j : Nat, map'.findNewIndex j = 0 → map.findNewIndex j = 0 ∧ (j = i → i = k)
  only : ∀ j : Nat, map'.findNewIndex j ≠ 0 → map.findNewIndex j ≠ 0 ∨ j = i
  keeps : ∀ j : Nat, map.findNewIndex j ≠ 0 → map'.findNewIndex j = map.findNewIndex j
  mapped : map.findNewIndex i = 0 → map'.newIndex i = k
  self : i = k → map' = map
  values : ∀ value ∈ map'.values, value ∈ map.values ∨ map.findNewIndex i = 0 ∧ value = k

theorem Remaps.refl {map : IndexMap} {k : Nat} (h : map.findNewIndex i ≠ 0 ∨ i = k) :
    Remaps i k map map where
  unmapped _ hzero := ⟨hzero, fun hj => h.resolve_left (not_not.mpr (hj ▸ hzero))⟩
  only _ := Or.inl
  keeps _ _ := rfl
  mapped hzero := (IndexMap.newIndex_of_eq_zero hzero).trans (h.resolve_left (not_not.mpr hzero))
  self _ := rfl
  values _ := Or.inl

theorem Remaps.newIndex_eq {map map' : IndexMap} {j k : Nat} (h : Remaps i k map map')
    (hne : map.findNewIndex j ≠ 0) : map'.newIndex j = map.newIndex j := by
  rw [IndexMap.newIndex, IndexMap.newIndex, h.keeps j hne]

theorem Mapped.remaps {n k : Nat} {map : IndexMap} (h : Mapped n map) (hi : 1 ≤ i) (hlt : i < n)
    (hpos : k ≠ 0) : Remaps i k map (map.mapIndex i k) := by
  by_cases hsame : map.findNewIndex i ≠ 0 ∨ i = k
  · have hmap : map.mapIndex i k = map := by
      unfold IndexMap.mapIndex
      split
      next => rfl
      next hzero => rw [if_pos (hsame.resolve_left hzero)]
    rw [hmap]
    exact .refl hsame
  · rw [not_or, not_not] at hsame
    obtain ⟨hzero, hik⟩ := hsame
    have hat := h.newIndex_mapIndex hzero ⟨hi, hlt⟩ hpos
    have hof := fun {j} (hj : j ≠ i) => h.findNewIndex_mapIndex_of_ne k hj
    refine ⟨fun j hj => ?_, fun j hne => ?_, fun j hne => hof fun hj => hne (hj ▸ hzero),
      fun _ => hat, fun heq => absurd heq hik, fun value hvalue => ?_⟩
    · have hji : j ≠ i := by
        rintro rfl
        exact hik ((IndexMap.newIndex_of_eq_zero hj).symm.trans hat)
      exact ⟨(hof hji).symm.trans hj, fun heq => absurd heq hji⟩
    · by_cases hji : j = i
      · exact Or.inr hji
      · exact Or.inl (hof hji ▸ hne)
    · unfold IndexMap.mapIndex at hvalue
      rw [if_neg (not_not.mpr hzero), if_neg hik] at hvalue
      exact (List.mem_or_eq_of_mem_set hvalue).imp_right fun heq => ⟨hzero, heq⟩

theorem Frame.mapIndex (h : Frame base scratch capacity m) {k : Nat} (hi : 1 ≤ i)
    (hlt : i < scratch.length) (hk : k < m.entries.length) (hpos : k ≠ 0)
    (hmine : passedOver base scratch i = false ∨ Referenced scratch i)
    (halike : SelfAlike scratch i →
      alike depth (scratch.map revert) i m.entries k = true) :
    Frame base scratch capacity (m.mapIndex i k) ∧ Remaps i k m.map (m.mapIndex i k).map := by
  have hremaps := h.mapped.remaps hi hlt hpos
  refine ⟨⟨h.grown, h.length, h.fits, h.pos, h.first, h.plain, h.closed, h.mapped.mapIndex i k,
    fun j hself hne => ?_, fun j hne => ?_, fun value hvalue => ?_, h.packed⟩, hremaps⟩
  · by_cases hzero : m.map.findNewIndex j = 0
    · obtain rfl : j = i := (hremaps.only j hne).resolve_left (not_not.mpr hzero)
      exact (congrArg _ (hremaps.mapped hzero)).trans (halike hself)
    · exact (congrArg _ (hremaps.newIndex_eq hzero)).trans (h.map j hself hzero)
  · rcases hremaps.only j hne with hne | rfl
    · exact h.mine j hne
    · exact hmine
  · rcases hremaps.values value hvalue with hvalue | ⟨-, rfl⟩
    · exact h.values value hvalue
    · exact_mod_cast hk

theorem Remaps.alike_self {k : Nat} (h : Remaps i k m.map m'.map)
    (halike : alike depth (scratch.map revert) i m'.entries k = true)
    (hzero : m'.map.findNewIndex i = 0) :
    alike depth (scratch.map revert) i m'.entries i = true := by
  rwa [← (h.unmapped i hzero).2 rfl] at halike

theorem entryAt_append_self (entries : Entries) (e : CpEntry) (rest : Entries) :
    entryAt (entries ++ e :: rest) entries.length = e := by
  simp [entryAt]

/-- The invalid entry behind a long or double. -/
def Padding (rest : Entries) : Prop := ∀ e ∈ rest, e = .invalid

theorem entryAt_padding {entries : Entries} {e : CpEntry} {rest : Entries} (h : Padding rest)
    {k : Nat} (hk : entries.length < k) : entryAt (entries ++ e :: rest) k = .invalid := by
  by_cases hlt : k < (entries ++ e :: rest).length
  · rw [entryAt_eq hlt, List.getElem_append_right (by omega)]
    obtain ⟨d, hd⟩ : ∃ d, k - entries.length = d + 1 := ⟨k - entries.length - 1, by omega⟩
    simp only [hd, List.getElem_cons_succ]
    exact h _ (List.getElem_mem _)
  · exact entryAt_beyond (not_lt.mp hlt)

/-- New entries at the end of the merged pool. -/
theorem Frame.grow (h : Frame base scratch capacity m) {e : CpEntry} {rest : Entries}
    (hroom : m.entries.length + (e :: rest).length ≤ m.length) (hplain : resolved e = false)
    (hclosed : ∀ first second, indices e = some (first, second) →
      first < m.entries.length ∧ second < m.entries.length)
    (hrest : Padding rest) :
    Frame base scratch capacity { m with entries := m.entries ++ e :: rest } := by
  have hlength : m.entries.length ≤ (m.entries ++ e :: rest).length := by
    rw [List.length_append]
    exact Nat.le_add_right ..
  have hentry : ∀ k, entryAt (m.entries ++ e :: rest) k = entryAt m.entries k ∨
      entryAt (m.entries ++ e :: rest) k = e ∧ k = m.entries.length ∨
      entryAt (m.entries ++ e :: rest) k = .invalid := by
    intro k
    rcases lt_trichotomy k m.entries.length with hk | rfl | hk
    · exact Or.inl (entryAt_append hk)
    · exact Or.inr (Or.inl ⟨entryAt_append_self .., rfl⟩)
    · exact Or.inr (Or.inr (entryAt_padding hrest hk))
  obtain ⟨new, hnew⟩ := h.grown
  refine ⟨⟨new ++ e :: rest, ?_⟩, h.length, ?_, lt_of_lt_of_le h.pos hlength, ?_,
    fun k => ?_, fun k first second hk => ?_,
    h.mapped, fun k hself hne => ?_, h.mine, fun value hvalue => ?_, fun i hi => ?_⟩
  · rw [← List.append_assoc, ← hnew]
  · rw [List.length_append]
    exact h.length ▸ hroom
  · rw [entryAt_append h.pos, h.first]
  · rcases hentry k with hk | ⟨hk, -⟩ | hk
    · rw [hk, h.plain]
    · rw [hk, hplain]
    · rw [hk]; rfl
  · rcases hentry k with heq | ⟨heq, -⟩ | heq
    · rw [heq] at hk
      exact ⟨lt_of_lt_of_le (h.closed k first second hk).1 hlength,
        lt_of_lt_of_le (h.closed k first second hk).2 hlength⟩
    · rw [heq] at hk
      exact ⟨lt_of_lt_of_le (hclosed first second hk).1 hlength,
        lt_of_lt_of_le (hclosed first second hk).2 hlength⟩
    · rw [heq] at hk
      cases hk
  · have halike := h.map k hself hne
    exact (alike_append _ h.closed (lt_of_alike halike)).trans halike
  · exact lt_of_lt_of_le (h.values value hvalue) (by exact_mod_cast hlength)
  · exact lt_of_lt_of_le (h.packed i hi) hlength

/-- Put new entries and map the index of the new pool to them. -/
theorem Frame.append (h : Frame base scratch capacity m) {e : CpEntry} {rest : Entries}
    (hi : 1 ≤ i) (hlt : i < scratch.length) (hplain : resolved e = false)
    (hclosed : ∀ first second, indices e = some (first, second) →
      first < m.entries.length ∧ second < m.entries.length)
    (hrest : Padding rest) (hmine : passedOver base scratch i = false ∨ Referenced scratch i)
    (halike : SelfAlike scratch i →
      alike depth (scratch.map revert) i (m.entries ++ e :: rest) m.entries.length = true) :
    Concludes (fun stop => stop = .outOfBounds ∧ capacity < m.entries.length + (e :: rest).length)
      (m.append i (e :: rest)) fun m' => Frame base scratch capacity m' ∧
        m'.entries = m.entries ++ e :: rest ∧ Remaps i m.entries.length m.map m'.map := by
  have hlength : m.entries.length < (m.entries ++ e :: rest).length := by simp
  unfold Merge.append Merge.put
  split
  next hroom =>
    have hgrow := h.grow hroom hplain hclosed hrest
    rw [bind_ok]
    refine Concludes.ok ?_
    split
    next =>
      obtain ⟨hframe, hremaps⟩ :=
        hgrow.mapIndex hi hlt hlength (Nat.pos_iff_ne_zero.mp h.pos) hmine halike
      exact ⟨hframe, rfl, hremaps⟩
    next heq => exact ⟨hgrow, rfl, .refl (Or.inr (not_not.mp heq))⟩
  next hroom =>
    rw [h.length] at hroom
    exact Concludes.error ⟨rfl, not_le.mp hroom⟩

theorem Parsed.matchesSame_eq (hparsed : Parsed scratch)
    (hne : entryAt scratch i ≠ .invalid) :
    matchesSame scratch i m = .ok (alike depth scratch i m.entries i) := by
  unfold matchesSame
  split
  next => exact compareEntryTo_eq (hparsed.deep_depth hne) i
  next hge =>
    cases halike : alike depth scratch i m.entries i with
    | false => rfl
    | true => exact absurd (lt_of_alike halike) hge

theorem findFrom_eq (entries : Entries) (hdeep : Deep depth scratch i) (left start : Nat)
    (hstart : 0 < start) :
    ∃ k, findFrom scratch i entries left start = .ok k ∧
      (k = 0 ∧ (∀ j, start ≤ j → j < start + left → alike depth scratch i entries j = false) ∨
        k ≠ 0 ∧ alike depth scratch i entries k = true ∧
          ∀ j, start ≤ j → j < k → alike depth scratch i entries j = false) := by
  induction left generalizing start with
  | zero => exact ⟨0, rfl, Or.inl ⟨rfl, fun j hj hj' => by omega⟩⟩
  | succ left ih =>
    unfold findFrom
    rw [compareEntryTo_eq hdeep, bind_ok]
    cases halike : alike depth scratch i entries start with
    | true =>
      exact ⟨start, rfl, Or.inr ⟨Nat.pos_iff_ne_zero.mp hstart, halike,
        fun j hj hj' => absurd hj (not_le.mpr hj')⟩⟩
    | false =>
      obtain ⟨k, hk, hfound⟩ := ih (start + 1) (Nat.succ_pos _)
      refine ⟨k, hk, hfound.imp (fun hnone => ⟨hnone.1, fun j hj hj' => ?_⟩)
        fun hat => ⟨hat.1, hat.2.1, fun j hj hj' => ?_⟩⟩
      · by_cases heq : j = start
        · rw [heq, halike]
        · exact hnone.2 j (by omega) (by omega)
      · by_cases heq : j = start
        · rw [heq, halike]
        · exact hat.2.2 j (by omega) hj'

/-- The first of the equal entries is found when there is one. -/
theorem Frame.findMatchingEntry_eq (h : Frame base scratch capacity m)
    (hparsed : Parsed scratch) (hne : entryAt scratch i ≠ .invalid) :
    ∃ k, m.findMatchingEntry scratch i = .ok k ∧
      (k = 0 ∧ (∀ j, alike depth scratch i m.entries j = false) ∨
        k ≠ 0 ∧ alike depth scratch i m.entries k = true ∧
          ∀ j < k, alike depth scratch i m.entries j = false) := by
  obtain ⟨k, hk, hfound⟩ :=
    findFrom_eq m.entries (hparsed.deep_depth hne) (m.length - 1) 1 Nat.one_pos
  have hpos : ∀ j, alike depth scratch i m.entries j = true → 1 ≤ j := by
    intro j halike
    refine Nat.pos_iff_ne_zero.mpr ?_
    rintro rfl
    exact ne_invalid_of_alike halike h.first
  refine ⟨k, hk,
    hfound.imp (fun hnone => ⟨hnone.1, fun j => Bool.eq_false_iff.mpr fun halike => ?_⟩)
    fun hat => ⟨hat.1, hat.2.1, fun j hj => Bool.eq_false_iff.mpr fun halike => ?_⟩⟩
  · have hlt := lt_of_alike halike
    have hfits := h.fits
    have hlength := h.length
    rw [hnone.2 j (hpos j halike) (by omega)] at halike
    cases halike
  · rw [hat.2.2 j (hpos j halike) hj] at halike
    cases halike

end Frames

/-- The references to resolved classes before `t`. -/
def refsBefore (scratch : Entries) (t : Nat) : Nat :=
  ∑ i ∈ range t, if toResolved scratch i then 1 else 0

/-- Before the turn of `t`, or in it: the entries of the new pool in `added` and `r` classes
besides are what the merged pool has beyond the old one. -/
structure Books (base scratch : Entries) (capacity t : Nat) (added : Finset Nat) (r : Nat)
    (m : Merge) : Prop extends Frame base scratch capacity m where
  size : m.entries.length =
    base.length + (∑ k ∈ added, width (entryAt scratch k) + r)
  refs : r ≤ refsBefore scratch scratch.length
  counted : ∀ k ∈ added, Counted base scratch k
  again : ∀ k ∈ added, k < t ∨ renewed scratch k = false ∧ Held scratch m.entries k
  done : ∀ k < t, Counted base scratch k → k ∈ added
  found : ∀ k, renewed scratch k = false → Counted base scratch k →
    Held scratch m.entries k → k ∈ added
  held : ∀ k < t, ∀ x ∈ brought base scratch k, SelfAlike scratch x →
    Held scratch m.entries x
  turned : ∀ k < t, ∀ x ∈ brought base scratch k, x = k ∨ renewed scratch x = true →
    SelfAlike scratch x → m.map.findNewIndex x = 0 →
      alike depth (scratch.map revert) x m.entries x = true

section Bookkeeping

variable {base scratch : Entries} {capacity t t' r i : Nat} {added : Finset Nat} {m m' : Merge}

theorem Counted.lt {k : Nat} (h : Counted base scratch k) : k < scratch.length := by
  by_contra hge
  exact h.1 (entryAt_beyond (not_lt.mp hge))

theorem sum_width_le (h : ∀ k ∈ added, Counted base scratch k) :
    ∑ k ∈ added, width (entryAt scratch k) + refsBefore scratch scratch.length ≤
      newSlots base scratch := by
  rw [newSlots, sum_add_distrib, ← sum_filter, refsBefore]
  refine Nat.add_le_add_right (sum_le_sum_of_subset fun k hk => ?_) _
  exact mem_filter.mpr ⟨mem_range.mpr (h k hk).lt, h k hk⟩

/-- The merged pool is too small for what is counted. -/
def Short (base scratch : Entries) (capacity : Nat) (stop : Stop) : Prop :=
  stop = .outOfBounds ∧ capacity < base.length + newSlots base scratch

theorem Held.grow {new : Entries} {x : Nat} (h : Held scratch m.entries x)
    (hclosed : Closed m.entries) (hentries : m'.entries = m.entries ++ new) :
    Held scratch m'.entries x := by
  obtain ⟨k, hk⟩ := h
  exact ⟨k, by rw [hentries, alike_append new hclosed (lt_of_alike hk), hk]⟩

/-- What the new entries add is equal to the first of them. -/
theorem Held.of_grow {e : CpEntry} {rest : Entries} {x : Nat} (h : Held scratch m'.entries x)
    (hclosed : Closed m.entries) (hentries : m'.entries = m.entries ++ e :: rest)
    (hrest : Padding rest) : Held scratch m.entries x ∨
      alike depth (scratch.map revert) x m'.entries m.entries.length = true := by
  obtain ⟨k, hk⟩ := h
  rcases lt_trichotomy k m.entries.length with hlt | rfl | hlt
  · rw [hentries, alike_append _ hclosed hlt] at hk
    exact Or.inl ⟨k, hk⟩
  · exact Or.inr hk
  · refine absurd ?_ (ne_invalid_of_alike hk)
    rw [hentries, entryAt_padding hrest hlt]

/-- What is renewed in this turn is counted only where it is in the merged pool already. -/
theorem Books.held_of_renewed (hp : Pools base scratch)
    (h : Books base scratch capacity t added r m) (ht : t < scratch.length)
    (hall : ∀ y ∈ brought base scratch t, renewed scratch y = true) {x k : Nat}
    (hx : x ∈ brought base scratch t) (hk : Counted base scratch k)
    (hrenewed : renewed scratch k = false)
    (halike : alike depth (scratch.map revert) x scratch k = true) :
    Held scratch m.entries k := by
  obtain ⟨-, hbefore⟩ := hk.2.2.2.resolve_left (by simp [hrenewed])
  obtain ⟨j, hj, y, hy, hyk⟩ := hbefore t ht ⟨x, hx, halike⟩
  have hyrenewed : renewed scratch y = false := (renewed_of_alike hyk).trans hrenewed
  rcases Nat.lt_succ_iff_lt_or_eq.mp hj with hlt | rfl
  · exact (h.held j hlt y hy (selfAlike_of_plain hp.parsed.toBuilt hyrenewed hyk)).of_alike
      hp.parsed.toBuilt hyrenewed hyk
  · rw [hall y hy] at hyrenewed
    cases hyrenewed

/-- The books do not depend on the index map, apart from the frame. -/
theorem Books.of_entries (h : Books base scratch capacity t added r m)
    (hframe : Frame base scratch capacity m') (hentries : m'.entries = m.entries)
    (hmap : ∀ k : Nat, m'.map.findNewIndex k = 0 → m.map.findNewIndex k = 0) :
    Books base scratch capacity t added r m' where
  toFrame := hframe
  size := by rw [hentries, h.size]
  refs := h.refs
  counted := h.counted
  again := by rw [hentries]; exact h.again
  done := h.done
  found := by rw [hentries]; exact h.found
  held := by rw [hentries]; exact h.held
  turned k hk x hx hkind hself hzero := by
    rw [hentries]
    exact h.turned k hk x hx hkind hself (hmap x hzero)

/-- The first of the equals of an entry that the merged pool does not have. -/
theorem exists_counted (hp : Pools base scratch) (h : Books base scratch capacity t added r m)
    (hrenewed : renewed scratch i = false) (hself : SelfAlike scratch i)
    (hpassed : passedOver base scratch i = false) (hnot : ¬Held scratch m.entries i)
    (hbrought : isClassOrRef (entryAt scratch i) = true → i ∈ brought base scratch t) :
    ∃ k, Counted base scratch k ∧ renewed scratch k = false ∧
      alike depth scratch i scratch k = true ∧ k ∉ added ∧
      ∀ k', Counted base scratch k' → alike depth scratch i scratch k' = true → k' = k := by
  have hbuilt := hp.parsed.toBuilt
  have hii : alike depth scratch i scratch i = true := by
    have hsymm := alike_symm hself
    rw [alike_revert (hbuilt.plain hrenewed)] at hsymm
    have hsymm' := alike_symm hsymm
    rwa [alike_revert (hbuilt.plain hrenewed)] at hsymm'
  have hexists : ∃ j, passedOver base scratch j = false ∧ alike depth scratch j scratch i = true :=
    ⟨i, hpassed, hii⟩
  obtain ⟨hkpassed, hki⟩ := Nat.find_spec hexists
  have hmin := fun j (hj : j < Nat.find hexists) => Nat.find_min hexists hj
  generalize Nat.find hexists = k at hkpassed hki hmin
  have hik := alike_symm hki
  have hkrenewed : renewed scratch k = false := (renewed_of_alike hki).trans hrenewed
  have hknot : ¬Held scratch m.entries k := fun hheld => hnot (hheld.of_alike hbuilt hkrenewed hki)
  have hkself : SelfAlike scratch k := selfAlike_of_plain hbuilt hkrenewed hki
  refine ⟨k, ⟨ne_invalid_of_alike hik, hkpassed, fun old hold => ?_,
    Or.inr ⟨fun j hj hjpassed => ?_, fun j hj => ?_⟩⟩, hkrenewed, hik, fun hadded => ?_,
    fun k' hk' hik' => ?_⟩
  · refine Bool.eq_false_iff.mpr fun halike => hknot ⟨old, ?_⟩
    obtain ⟨new, hnew⟩ := h.grown
    rw [alike_revert (hbuilt.plain hkrenewed), hnew, alike_append new hp.closed hold, halike]
  · exact Bool.eq_false_iff.mpr fun halike => hmin j hj ⟨hjpassed, alike_trans halike hki⟩
  · rintro ⟨x, hx, hxk⟩
    cases hxrenewed : renewed scratch x with
    | false =>
      rw [alike_revert (hbuilt.plain hxrenewed)] at hxk
      exact ⟨j, Nat.lt_succ_self j, x, hx, hxk⟩
    | true =>
      rcases lt_or_ge j t with hlt | hge
      · exact absurd ((h.held j hlt x hx (selfAlike_of_alike hxk)).of_alike_revert hbuilt
          hkrenewed hxk) hknot
      · refine ⟨t, Nat.lt_succ_of_le hge, i, hbrought ?_, hik⟩
        rw [(sameKind_of_alike hik).isClassOrRef, ← (sameKind_of_alike hxk).isClassOrRef,
          entryAt_map_revert, isClassOrRef_revert]
        exact isClassOrRef_of_renewed hxrenewed
  · rcases h.again k hadded with hlt | ⟨-, hheld⟩
    · exact hknot (h.held k hlt k (self_mem_brought hkpassed) hkself)
    · exact hknot hheld
  · by_contra hne
    have hkk' := alike_trans hki hik'
    have hk'renewed : renewed scratch k' = false := (renewed_of_alike hkk').symm.trans hkrenewed
    rcases lt_or_gt_of_ne hne with hlt | hlt
    · exact hmin k' hlt ⟨hk'.2.1, alike_symm hik'⟩
    · have hfirst := (hk'.2.2.2.resolve_left (by simp [hk'renewed])).1 k hlt hkpassed
      rw [hkk'] at hfirst
      cases hfirst

theorem Parsed.range (hparsed : Parsed scratch) (hne : entryAt scratch i ≠ .invalid) :
    1 ≤ i ∧ i < scratch.length := by
  constructor
  · by_contra hzero
    rw [Nat.lt_one_iff.mp (not_le.mp hzero)] at hne
    exact hne hparsed.first
  · by_contra hge
    exact hne (entryAt_beyond (not_lt.mp hge))

theorem Books.held_grow (h : Books base scratch capacity t added r m) {new : Entries}
    (hentries : m'.entries = m.entries ++ new) :
    ∀ k < t, ∀ x ∈ brought base scratch k, SelfAlike scratch x →
      Held scratch m'.entries x :=
  fun k hk x hx hself => (h.held k hk x hx hself).grow h.closed hentries

theorem Books.turned_grow (h : Books base scratch capacity t added r m) {new : Entries} {p : Nat}
    (hentries : m'.entries = m.entries ++ new) (hremaps : Remaps i p m.map m'.map) :
    ∀ k < t, ∀ x ∈ brought base scratch k, x = k ∨ renewed scratch x = true →
      SelfAlike scratch x → m'.map.findNewIndex x = 0 →
        alike depth (scratch.map revert) x m'.entries x = true := by
  intro k hk x hx hkind hself hzero
  have halike := h.turned k hk x hx hkind hself (hremaps.unmapped x hzero).1
  rw [hentries, alike_append new h.closed (lt_of_alike halike), halike]

/-- An entry that the merged pool does not have is added: the first of its equals counts. -/
theorem Books.append_first (hp : Pools base scratch)
    (h : Books base scratch capacity t added r m) (hrenewed : renewed scratch i = false)
    (hself : SelfAlike scratch i) (hpassed : passedOver base scratch i = false)
    (hnot : ¬Held scratch m.entries i)
    (hbrought : isClassOrRef (entryAt scratch i) = true → i ∈ brought base scratch t)
    {e : CpEntry} {rest : Entries} (hplain : resolved e = false)
    (hclosed : ∀ first second, indices e = some (first, second) →
      first < m.entries.length ∧ second < m.entries.length)
    (hrest : Padding rest) (hwidth : (e :: rest).length = width (entryAt scratch i))
    (halike : alike depth (scratch.map revert) i (m.entries ++ e :: rest) m.entries.length = true) :
    Concludes (Short base scratch capacity) (m.append i (e :: rest)) fun m' =>
      (∃ added', Books base scratch capacity t added' r m') ∧
        m'.entries = m.entries ++ e :: rest ∧ Remaps i m.entries.length m.map m'.map := by
  obtain ⟨k, hk, hkrenewed, hik, hknew, hunique⟩ :=
    exists_counted hp h hrenewed hself hpassed hnot hbrought
  have hne : entryAt scratch i ≠ .invalid := ne_invalid_of_alike (alike_symm hik)
  obtain ⟨hpos, hlt⟩ := hp.parsed.range hne
  have hcounted : ∀ j ∈ insert k added, Counted base scratch j := by
    intro j hj
    rcases mem_insert.mp hj with rfl | hj
    · exact hk
    · exact h.counted j hj
  have hsum : ∑ j ∈ insert k added, width (entryAt scratch j) =
      width (entryAt scratch i) + ∑ j ∈ added, width (entryAt scratch j) := by
    rw [sum_insert hknew, (sameKind_of_alike hik).width]
  have hsize := h.size
  refine (h.toFrame.append hpos hlt hplain hclosed hrest (Or.inl hpassed)
    fun _ => halike).weaken ?_ ?_
  · rintro stop ⟨hstop, hcapacity⟩
    refine ⟨hstop, ?_⟩
    have hbound := sum_width_le hcounted
    have hrefs := h.refs
    omega
  · rintro m' ⟨hframe, hentries, hremaps⟩
    have hheld : Held scratch m'.entries i := ⟨m.entries.length, by rw [hentries]; exact halike⟩
    refine ⟨⟨insert k added, hframe, ?_, h.refs, hcounted, ?_, ?_, ?_, h.held_grow hentries,
      h.turned_grow hentries hremaps⟩, hentries, hremaps⟩
    · rw [hentries, List.length_append, hwidth, hsum]
      omega
    · intro j hj
      rcases mem_insert.mp hj with rfl | hj
      · exact Or.inr ⟨hkrenewed, hheld.of_alike hp.parsed.toBuilt hrenewed hik⟩
      · exact (h.again j hj).imp_right fun hagain => ⟨hagain.1, hagain.2.grow h.closed hentries⟩
    · exact fun j hj hcount => mem_insert_of_mem (h.done j hj hcount)
    · intro j hjrenewed hcount hj
      rcases hj.of_grow h.closed hentries hrest with hj | hj
      · exact mem_insert_of_mem (h.found j hjrenewed hcount hj)
      · rw [hentries] at hj
        refine mem_insert.mpr (Or.inl (hunique j hcount ?_))
        have hij := alike_trans halike (alike_symm hj)
        rw [alike_revert (hp.parsed.plain hrenewed)] at hij
        have hji := alike_symm hij
        rw [alike_revert (hp.parsed.plain hjrenewed)] at hji
        exact alike_symm hji

/-- Only a NaN differs from itself. -/
theorem Built.selfAlike (h : Built scratch) (hne : entryAt scratch i ≠ .invalid)
    (hfloating : isFloating (entryAt scratch i) = false) : SelfAlike scratch i := by
  refine h.induct (P := fun n i => isFloating (entryAt scratch i) = false →
      alike n (scratch.map revert) i (scratch.map revert) i = true)
    (fun n i hnone hne hfloating => ?_) (fun n i first second hindices hfirst hsecond _ => ?_)
    (level_le_two _) hne hfloating
  · rw [alike_iff, entryAt_map_revert, indices_revert]
    exact Or.inl ⟨hnone, hnone, directAlike_revert_self hnone hne hfloating⟩
  · obtain ⟨hfirst', hsecond'⟩ := h.indices hindices
    rw [alike_iff, entryAt_map_revert, indices_revert]
    exact Or.inr ⟨first, second, first, second, hindices, hindices, rfl,
      hfirst (Grows.isFloating_of_referred (hfirst'.imp id Or.inl)),
      hsecond (Grows.isFloating_of_referred (hsecond'.imp id Or.inr))⟩

theorem mine_of_brought (hi : i ∈ brought base scratch t) :
    passedOver base scratch i = false ∨ Referenced scratch i := by
  obtain ⟨hpassed, rfl | ⟨href, second, hindices⟩⟩ := mem_brought hi
  · exact Or.inl hpassed
  · exact Or.inr ⟨t, second, href, hindices⟩

theorem renewed_of_brought (hrenewed : renewed scratch t = true) :
    ∀ x ∈ brought base scratch t, renewed scratch x = true := by
  intro x hx
  obtain ⟨-, rfl | ⟨href, second, hindices⟩⟩ := mem_brought hx
  · exact hrenewed
  · have hto : toResolved scratch t = true := by
      rw [renewed, Bool.or_eq_true] at hrenewed
      refine hrenewed.resolve_left fun hresolved => ?_
      cases hentry : entryAt scratch t <;> rw [hentry] at href hresolved <;>
        first | (cases hresolved; done) | cases href
    rw [toResolved_eq _ _ hindices, href] at hto
    rw [renewed, show resolved (entryAt scratch x) = true from hto]
    rfl

/-- A new entry for something renewed is no counted entry that the merged pool did not have. -/
theorem Books.found_again (hp : Pools base scratch)
    (h : Books base scratch capacity t added r m) (ht : t < scratch.length)
    (hrenewed : renewed scratch t = true) {x : Nat} (hx : x ∈ brought base scratch t)
    {e : CpEntry} {rest : Entries} (hrest : Padding rest)
    (hentries : m'.entries = m.entries ++ e :: rest)
    (halike : alike depth (scratch.map revert) x m'.entries m.entries.length = true) :
    ∀ k, renewed scratch k = false → Counted base scratch k → Held scratch m'.entries k →
      k ∈ added := by
  intro k hkrenewed hk hheld
  refine h.found k hkrenewed hk ?_
  rcases hheld.of_grow h.closed hentries hrest with hheld | hk'
  · exact hheld
  · refine h.held_of_renewed hp ht (renewed_of_brought hrenewed) hx hk hkrenewed ?_
    rw [alike_revert (hp.parsed.plain hkrenewed)] at hk'
    exact alike_trans halike (alike_symm hk')

/-- The class of a reference is added once more. -/
theorem Books.append_again (hp : Pools base scratch)
    (h : Books base scratch capacity t added r m) (ht : t < scratch.length)
    (hrenewed : renewed scratch t = true) (hi : i ∈ brought base scratch t)
    (hr : r + 1 ≤ refsBefore scratch scratch.length) {e : CpEntry} (hplain : resolved e = false)
    (hindices : indices e = none) (hwidth : entryAt scratch i ≠ .invalid)
    (halike : alike depth (scratch.map revert) i (m.entries ++ [e]) m.entries.length = true) :
    Concludes (Short base scratch capacity) (m.append i [e]) fun m' =>
      Books base scratch capacity t added (r + 1) m' ∧ m'.entries = m.entries ++ [e] ∧
        Remaps i m.entries.length m.map m'.map := by
  obtain ⟨hpos, hlt⟩ := hp.parsed.range hwidth
  have hsize := h.size
  have hrest : Padding [] := fun _ hmem => absurd hmem List.not_mem_nil
  have hclosed : ∀ first second, indices e = some (first, second) →
      first < m.entries.length ∧ second < m.entries.length := by simp [hindices]
  refine (h.toFrame.append hpos hlt hplain hclosed hrest (mine_of_brought hi)
    fun _ => halike).weaken ?_ ?_
  · rintro stop ⟨hstop, hcapacity⟩
    refine ⟨hstop, ?_⟩
    have hbound := sum_width_le h.counted
    rw [List.length_singleton] at hcapacity
    omega
  · rintro m' ⟨hframe, hentries, hremaps⟩
    refine ⟨⟨hframe, ?_, hr, h.counted, fun k hk => ?_, h.done, ?_, h.held_grow hentries,
      h.turned_grow hentries hremaps⟩, hentries, hremaps⟩
    · rw [hentries, List.length_append, List.length_singleton]
      omega
    · exact (h.again k hk).imp_right fun hagain => ⟨hagain.1, hagain.2.grow h.closed hentries⟩
    · exact h.found_again hp ht hrenewed hi hrest hentries (by rw [hentries]; exact halike)

/-- Between two turns there are only the second halves of entries. -/
theorem before_next {P : Nat → Prop} (hgap : ∀ j, t < j → j < t' → entryAt scratch j = .invalid)
    (hbefore : ∀ k < t, P k) (hturn : P t) (hinvalid : ∀ k, entryAt scratch k = .invalid → P k) :
    ∀ k < t', P k := by
  intro k hk
  rcases lt_trichotomy k t with hlt | rfl | hlt
  · exact hbefore k hlt
  · exact hturn
  · exact hinvalid k (hgap k hlt hk)

theorem not_selfAlike_of_invalid (hi : entryAt scratch i = .invalid) : ¬SelfAlike scratch i := by
  refine fun hself => ne_invalid_of_alike hself ?_
  rw [entryAt_map_revert, hi]
  rfl

theorem not_selfAlike_of_brought (hi : entryAt scratch i = .invalid) :
    ∀ x ∈ brought base scratch i, ¬SelfAlike scratch x := by
  intro x hx hself
  obtain ⟨-, rfl | ⟨href, -⟩⟩ := mem_brought hx
  · exact not_selfAlike_of_invalid hi hself
  · rw [hi] at href
    cases href

/-- The turn of `t` is over, without an entry that is renewed. -/
theorem Books.close (h : Books base scratch capacity t added r m)
    (hgap : ∀ j, t < j → j < t' → entryAt scratch j = .invalid)
    (hle : t ≤ t') (hdone : Counted base scratch t → t ∈ added)
    (hheld : ∀ x ∈ brought base scratch t, SelfAlike scratch x → Held scratch m.entries x)
    (hturned : ∀ x ∈ brought base scratch t, x = t ∨ renewed scratch x = true →
      SelfAlike scratch x → m.map.findNewIndex x = 0 →
        alike depth (scratch.map revert) x m.entries x = true) :
    Books base scratch capacity t' added r m where
  toFrame := h.toFrame
  size := h.size
  refs := h.refs
  counted := h.counted
  again k hk := (h.again k hk).imp_left fun hlt => lt_of_lt_of_le hlt hle
  done := before_next hgap h.done hdone fun _ hinvalid hcount => absurd hinvalid hcount.1
  found := h.found
  held := before_next hgap h.held hheld fun _ hinvalid x hx hself =>
    absurd hself (not_selfAlike_of_brought hinvalid x hx)
  turned := before_next hgap h.turned hturned fun _ hinvalid x hx _ hself =>
    absurd hself (not_selfAlike_of_brought hinvalid x hx)

/-- The turn of what no entry of the merged pool is equal to. -/
theorem Books.append_own (hp : Pools base scratch)
    (h : Books base scratch capacity t added r m) (hcounted : Counted base scratch t)
    (hown : renewed scratch t = true ∨ ¬SelfAlike scratch t)
    (hgap : ∀ j, t < j → j < t' → entryAt scratch j = .invalid) (hlt : t < t')
    (hheld : ∀ x ∈ brought base scratch t, x ≠ t → Held scratch m.entries x ∧
      (m.map.findNewIndex x = 0 → alike depth (scratch.map revert) x m.entries x = true))
    {e : CpEntry} {rest : Entries} (hplain : resolved e = false)
    (hclosed : ∀ first second, indices e = some (first, second) →
      first < m.entries.length ∧ second < m.entries.length)
    (hrest : Padding rest) (hwidth : (e :: rest).length = width (entryAt scratch t))
    (halike : SelfAlike scratch t →
      alike depth (scratch.map revert) t (m.entries ++ e :: rest) m.entries.length = true)
    (hnone : ¬SelfAlike scratch t → ∀ k,
      alike depth (scratch.map revert) k (m.entries ++ e :: rest) m.entries.length = false) :
    Concludes (Short base scratch capacity) (m.append t (e :: rest)) fun m' =>
      Books base scratch capacity t' (insert t added) r m' ∧ m'.entries = m.entries ++ e :: rest ∧
        Remaps t m.entries.length m.map m'.map := by
  obtain ⟨hpos, hrange⟩ := hp.parsed.range hcounted.1
  have hnew : t ∉ added := by
    intro hadded
    rcases h.again t hadded with hlt | ⟨hrenewed, hheld⟩
    · exact absurd hlt (lt_irrefl t)
    · rcases hown with htrue | hnot
      · rw [htrue] at hrenewed
        cases hrenewed
      · exact hnot hheld.selfAlike
  have hcounted' : ∀ j ∈ insert t added, Counted base scratch j := by
    intro j hj
    rcases mem_insert.mp hj with rfl | hj
    · exact hcounted
    · exact h.counted j hj
  have hsum : ∑ j ∈ insert t added, width (entryAt scratch j) =
      width (entryAt scratch t) + ∑ j ∈ added, width (entryAt scratch j) := sum_insert hnew
  have hsize := h.size
  refine (h.toFrame.append hpos hrange hplain hclosed hrest (Or.inl hcounted.2.1)
    halike).weaken ?_ ?_
  · rintro stop ⟨hstop, hcapacity⟩
    refine ⟨hstop, ?_⟩
    have hbound := sum_width_le hcounted'
    have hrefs := h.refs
    omega
  · rintro m' ⟨hframe, hentries, hremaps⟩
    refine ⟨⟨hframe, ?_, h.refs, hcounted', ?_, ?_, ?_, ?_, ?_⟩, hentries, hremaps⟩
    · rw [hentries, List.length_append, hwidth, hsum]
      omega
    · intro j hj
      rcases mem_insert.mp hj with rfl | hj
      · exact Or.inl hlt
      · exact (h.again j hj).imp (fun hj => lt_trans hj hlt)
          fun hagain => ⟨hagain.1, hagain.2.grow h.closed hentries⟩
    · exact before_next hgap (fun j hj hcount => mem_insert_of_mem (h.done j hj hcount))
        (fun _ => mem_insert_self ..) fun _ hinvalid hcount => absurd hinvalid hcount.1
    · intro k hkrenewed hk hkheld
      refine mem_insert_of_mem ?_
      by_cases hself : SelfAlike scratch t
      · exact h.found_again hp hrange (hown.resolve_right (not_not.mpr hself))
          (self_mem_brought hcounted.2.1) hrest hentries
          (by rw [hentries]; exact halike hself) k hkrenewed hk hkheld
      · refine h.found k hkrenewed hk ((hkheld.of_grow h.closed hentries hrest).resolve_right ?_)
        rw [hentries, hnone hself]
        exact Bool.false_ne_true
    · refine before_next hgap (h.held_grow hentries) (fun x hx hself => ?_)
        fun _ hinvalid x hx hself => absurd hself (not_selfAlike_of_brought hinvalid x hx)
      by_cases hx' : x = t
      · subst hx'
        exact ⟨m.entries.length, by rw [hentries]; exact halike hself⟩
      · exact (hheld x hx hx').1.grow h.closed hentries
    · refine before_next hgap (h.turned_grow hentries hremaps) (fun x hx _ hself hzero => ?_)
        fun _ hinvalid x hx _ hself => absurd hself (not_selfAlike_of_brought hinvalid x hx)
      by_cases hx' : x = t
      · subst hx'
        have hat := halike hself
        rw [← (hremaps.unmapped x hzero).2 rfl] at hat
        rw [hentries, hat]
      · have hat := (hheld x hx hx').2 (hremaps.unmapped x hzero).1
        rw [hentries, alike_append _ h.closed (lt_of_alike hat), hat]

end Bookkeeping

end HotSpot.PoolMerge
