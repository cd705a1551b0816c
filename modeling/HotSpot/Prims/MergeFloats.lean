import HotSpot.Lib.Simulation
import HotSpot.Prims.MergeConstantPools
import Mathlib.Data.Nat.Basic

/-! # Floating point constants of a merge

A float or double of the new pool is merged with the first entry that compares equal to it,
and a comparison takes the two zeros for one number: which constants survive bit for bit
depends on the zeros of both pools.
-/

namespace HotSpot.PoolMerge

/-! ## Floating point entries -/

def isFloating : CpEntry → Bool
  | .float _ | .double _ => true
  | _ => false

/-- How two floating point entries compare. -/
def sameNumber : CpEntry → CpEntry → Bool
  | .float a, .float b => jfloatEq a b
  | .double a, .double b => jdoubleEq a b
  | _, _ => false

theorem floatingEq_symm {w infinity : Nat} {a b : BitVec w} (h : floatingEq infinity a b = true) :
    floatingEq infinity b a = true := by
  simp only [floatingEq, Bool.and_eq_true, Bool.or_eq_true, decide_eq_true_eq] at h ⊢
  exact ⟨⟨h.1.2, h.1.1⟩, h.2.imp Eq.symm And.symm⟩

theorem floatingEq_trans {w infinity : Nat} {a b c : BitVec w}
    (h : floatingEq infinity a b = true) (h' : floatingEq infinity b c = true) :
    floatingEq infinity a c = true := by
  simp only [floatingEq, Bool.and_eq_true, Bool.or_eq_true, decide_eq_true_eq] at h h' ⊢
  refine ⟨⟨h.1.1, h'.1.2⟩, ?_⟩
  rcases h.2 with rfl | hzero
  · exact h'.2
  · rcases h'.2 with rfl | hzero'
    · exact Or.inr hzero
    · exact Or.inr ⟨hzero.1, hzero'.2⟩

theorem sameNumber_symm {a b : CpEntry} (h : sameNumber a b = true) : sameNumber b a = true := by
  cases a <;> cases b <;> first | exact floatingEq_symm h | exact h

theorem sameNumber_trans {a b c : CpEntry} (h : sameNumber a b = true)
    (h' : sameNumber b c = true) : sameNumber a c = true := by
  cases a <;> cases b <;> try cases h
  all_goals cases c <;> first | exact floatingEq_trans h h' | exact h'

theorem isFloating_of_sameNumber {a b : CpEntry} (h : sameNumber a b = true) :
    isFloating b = true := by
  cases a <;> cases b <;> first | rfl | cases h

theorem compareEntryTo_floating {fuel i k : Nat} {scratch merged : Entries}
    (h : isFloating (entryAt scratch i) = true) :
    compareEntryTo (fuel + 1) scratch i merged k =
      .ok (sameNumber (entryAt scratch i) (entryAt merged k)) := by
  unfold compareEntryTo
  generalize entryAt scratch i = e at h ⊢
  generalize entryAt merged k = e'
  cases e with
  | float a => cases e' <;> rfl
  | double a => cases e' <;> rfl
  | _ => cases h

/-! ## What is not floating -/

/-- A part of the merge that adds no floating point entries and maps none. -/
structure Grows (scratch : Entries) (m m' : Merge) : Prop where
  entries : ∃ new, m'.entries = m.entries ++ new ∧ ∀ e ∈ new, isFloating e = false
  fits : m.entries.length ≤ m.length → m'.entries.length ≤ m'.length
  mapped : Mapped scratch.length m.map → Mapped scratch.length m'.map
  map : Mapped scratch.length m.map → ∀ j, isFloating (entryAt scratch j) = true →
    m'.map.findNewIndex j = m.map.findNewIndex j

namespace Grows

variable {scratch : Entries} {m m' m'' : Merge} {i k : Nat}

theorem refl : Grows scratch m m :=
  ⟨⟨[], (List.append_nil _).symm, fun _ he => absurd he List.not_mem_nil⟩, id, id,
    fun _ _ _ => rfl⟩

theorem trans (h : Grows scratch m m') (h' : Grows scratch m' m'') : Grows scratch m m'' := by
  obtain ⟨new, hnew, hflat⟩ := h.entries
  obtain ⟨new', hnew', hflat'⟩ := h'.entries
  refine ⟨⟨new ++ new', by rw [hnew', hnew, List.append_assoc], fun e he => ?_⟩,
    h'.fits ∘ h.fits, h'.mapped ∘ h.mapped, fun hmapped j hj =>
      (h'.map (h.mapped hmapped) j hj).trans (h.map hmapped j hj)⟩
  rcases List.mem_append.mp he with he | he
  · exact hflat e he
  · exact hflat' e he

theorem mapIndex (hi : isFloating (entryAt scratch i) = false) :
    Grows scratch m (m.mapIndex i k) where
  entries := ⟨[], (List.append_nil _).symm, fun _ he => absurd he List.not_mem_nil⟩
  fits := id
  mapped h := h.mapIndex i k
  map h j hj := by
    refine h.findNewIndex_mapIndex_of_ne k ?_
    rintro rfl
    rw [hi] at hj
    cases hj

theorem append {new : Entries} (hi : isFloating (entryAt scratch i) = false)
    (hnew : ∀ e ∈ new, isFloating e = false) (h : m.append i new = .ok m') :
    Grows scratch m m' := by
  obtain ⟨m₁, hput, hret⟩ := bind_eq_ok h
  have hgrows : Grows scratch m m₁ := by
    unfold Merge.put at hput
    split at hput
    next hfits =>
      cases hput
      exact ⟨⟨new, rfl, hnew⟩, fun _ => by rwa [List.length_append], id, fun _ _ _ => rfl⟩
    next => cases hput
  cases hret
  split
  next => exact hgrows.trans (.mapIndex hi)
  next => exact hgrows

/-- What is packed does not matter here. -/
theorem packed {packed : List Nat} (h : Grows scratch { m with packed } m') :
    Grows scratch m m' := ⟨h.entries, h.fits, h.mapped, h.map⟩

theorem locate {app : Nat → Merge → Except Stop Merge} {x : Nat}
    (happend : ∀ m', app i m = .ok m' → Grows scratch m m')
    (hi : isFloating (entryAt scratch i) = false)
    (h : locate app scratch i m = .ok (x, m')) : Grows scratch m m' := by
  obtain ⟨same, -, h⟩ := bind_eq_ok h
  split at h
  next =>
    cases h
    exact refl
  next =>
    obtain ⟨found, -, h⟩ := bind_eq_ok h
    split at h
    next =>
      split at h
      next => cases h
      next =>
        cases h
        exact .mapIndex hi
    next =>
      obtain ⟨m₁, happ, h⟩ := bind_eq_ok h
      cases h
      exact happend _ happ

theorem appendPair {app : Nat → Merge → Except Stop Merge} {entry : Nat × Nat → CpEntry}
    {first second : Nat}
    (happend : ∀ j m m', isFloating (entryAt scratch j) = false → app j m = .ok m' →
      Grows scratch m m')
    (hi : isFloating (entryAt scratch i) = false) (hentry : ∀ p, isFloating (entry p) = false)
    (hfirst : isFloating (entryAt scratch first) = false)
    (hsecond : isFloating (entryAt scratch second) = false)
    (h : appendPair app scratch i entry first second m = .ok m') : Grows scratch m m' := by
  obtain ⟨⟨x, m₁⟩, hlocate, h⟩ := bind_eq_ok h
  obtain ⟨⟨y, m₂⟩, hlocate', h⟩ := bind_eq_ok h
  have hgrows := (locate (fun m' => happend first m m' hfirst) hfirst hlocate).trans
    (locate (fun m' => happend second m₁ m' hsecond) hsecond hlocate')
  refine hgrows.trans (packed (append hi ?_ h))
  intro e he
  rw [List.mem_singleton.mp he]
  exact hentry _

theorem isFloating_of_referred {e : CpEntry}
    (h : isUtf8 e = true ∨ isKlass e = true ∨ isNameAndType e = true) : isFloating e = false := by
  cases e <;> simp_all [isUtf8, isKlass, isNameAndType, isFloating]

theorem appendEntry (hbuilt : Built scratch) {fuel : Nat}
    (hi : isFloating (entryAt scratch i) = false)
    (h : appendEntry scratch fuel i m = .ok m') : Grows scratch m m' := by
  induction fuel generalizing i m m' with
  | zero => cases h
  | succ fuel ih =>
    have hrec : ∀ j m m', isFloating (entryAt scratch j) = false →
        PoolMerge.appendEntry scratch fuel j m = .ok m' → Grows scratch m m' :=
      fun j m m' hj hm' => ih hj hm'
    have hpair : ∀ {first second : Nat} {entry : Nat × Nat → CpEntry},
        indices (entryAt scratch i) = some (first, second) →
        (∀ p, isFloating (entry p) = false) →
        PoolMerge.appendPair (PoolMerge.appendEntry scratch fuel) scratch i entry first second m =
          .ok m' → Grows scratch m m' := by
      intro first second entry hindices hentry hm'
      obtain ⟨hfirst, hsecond⟩ := hbuilt.indices hindices
      exact appendPair hrec hi hentry
        (isFloating_of_referred (hfirst.imp id Or.inl))
        (isFloating_of_referred (hsecond.imp id Or.inr)) hm'
    unfold PoolMerge.appendEntry at h
    cases hentry : entryAt scratch i with
    | nameAndType _ _ | field _ _ | method _ _ | interfaceMethod _ _ =>
      rw [hentry] at h
      exact hpair (by rw [hentry]; rfl) (fun _ => rfl) h
    | float _ | double _ => rw [hentry] at hi; cases hi
    | invalid | unresolvedKlassInError _ => rw [hentry] at h; cases h
    | _ =>
      rw [hentry] at h
      exact append hi (by simp [isFloating]) h

end Grows

/-! ## What is found -/

theorem sameNumber_invalid (e : CpEntry) : sameNumber e .invalid = false := by
  cases e <;> rfl

theorem findFrom_floating {scratch merged : Entries} {i left start : Nat}
    (h : isFloating (entryAt scratch i) = true) (hend : merged.length ≤ start + left)
    (hbefore : ∀ k < start, sameNumber (entryAt scratch i) (entryAt merged k) = false)
    (hstart : 0 < start) :
    ∃ k, findFrom scratch i merged left start = .ok k ∧
      (k = 0 ∧ merged.find? (sameNumber (entryAt scratch i)) = none ∨
        k ≠ 0 ∧ k < merged.length ∧
          merged.find? (sameNumber (entryAt scratch i)) = some (entryAt merged k)) := by
  induction left generalizing start with
  | zero =>
    refine ⟨0, rfl, Or.inl ⟨rfl, List.find?_eq_none.mpr fun e he => ?_⟩⟩
    obtain ⟨k, hk, rfl⟩ := List.getElem_of_mem he
    have hfalse := hbefore k (by omega)
    rw [entryAt_eq hk] at hfalse
    simp [hfalse]
  | succ left ih =>
    unfold findFrom
    rw [compareEntryTo_floating h, bind_ok]
    cases hsame : sameNumber (entryAt scratch i) (entryAt merged start) with
    | true =>
      have hlt : start < merged.length := by
        by_contra hge
        rw [entryAt_beyond (not_lt.mp hge), sameNumber_invalid] at hsame
        cases hsame
      refine ⟨start, rfl, Or.inr ⟨by omega, hlt, ?_⟩⟩
      rw [List.find?_eq_some_iff_getElem]
      refine ⟨hsame, start, hlt, (entryAt_eq hlt).symm, fun k hk => ?_⟩
      have hfalse := hbefore k hk
      rw [entryAt_eq (lt_trans hk hlt)] at hfalse
      simp [hfalse]
    | false =>
      refine ih (by omega) (fun k hk => ?_) (by omega)
      rcases Nat.lt_succ_iff_lt_or_eq.mp hk with hk | rfl
      · exact hbefore k hk
      · exact hsame

theorem findMatchingEntry_floating {scratch : Entries} {m : Merge} {i : Nat}
    (h : isFloating (entryAt scratch i) = true) (hfits : m.entries.length ≤ m.length)
    (hfirst : entryAt m.entries 0 = .invalid) :
    ∃ k, m.findMatchingEntry scratch i = .ok k ∧
      (k = 0 ∧ m.entries.find? (sameNumber (entryAt scratch i)) = none ∨
        k ≠ 0 ∧ k < m.entries.length ∧
          m.entries.find? (sameNumber (entryAt scratch i)) = some (entryAt m.entries k)) := by
  refine findFrom_floating h (by omega) (fun k hk => ?_) Nat.one_pos
  rw [Nat.lt_one_iff.mp hk, hfirst]
  exact sameNumber_invalid _

/-! ## The invariant -/

/-- The entry that a floating point entry of the new pool shares: the equal one at its index
in the old pool, else the first equal one of the old pool, else of the new pool. A NaN is
equal to none. -/
def sharedWith (old scratch : Entries) (i : Nat) : CpEntry :=
  if i < old.length ∧ sameNumber (entryAt scratch i) (entryAt old i) = true then entryAt old i
  else ((old.find? (sameNumber (entryAt scratch i))).or
    (scratch.find? (sameNumber (entryAt scratch i)))).getD (entryAt scratch i)

/-- Before the turn of `t`. -/
structure FloatsMerged (old scratch : Entries) (t : Nat) (m : Merge) : Prop where
  pos : 0 < m.entries.length
  first : entryAt m.entries 0 = .invalid
  fits : m.entries.length ≤ m.length
  oldLength : old.length ≤ m.entries.length
  same : ∀ i < old.length, ∀ e, sameNumber e (entryAt m.entries i) = sameNumber e (entryAt old i)
  oldFloating : ∀ i < old.length, isFloating (entryAt old i) = true →
    entryAt m.entries i = entryAt old i
  find : ∀ e, m.entries.find? (sameNumber e) =
    (old.find? (sameNumber e)).or ((scratch.take t).find? (sameNumber e))
  mapped : Mapped scratch.length m.map
  unmapped : ∀ j, t ≤ j → isFloating (entryAt scratch j) = true → m.map.findNewIndex j = 0
  merged : ∀ j < t, isFloating (entryAt scratch j) = true →
    m.map.newIndex j < m.entries.length ∧
      entryAt m.entries (m.map.newIndex j) = sharedWith old scratch j

namespace FloatsMerged

variable {old scratch : Entries} {t t' : Nat} {m m' : Merge}

/-- Entries between two turns that are not floating change nothing. -/
theorem find_take (hle : t ≤ t')
    (hflat : ∀ j, t ≤ j → j < t' → isFloating (entryAt scratch j) = false) (e : CpEntry) :
    (scratch.take t').find? (sameNumber e) = (scratch.take t).find? (sameNumber e) := by
  have htake : scratch.take t' = scratch.take t ++ (scratch.drop t).take (t' - t) := by
    rw [← List.take_add, Nat.add_sub_cancel' hle]
  rw [htake, List.find?_append]
  have hnone : ((scratch.drop t).take (t' - t)).find? (sameNumber e) = none := by
    refine List.find?_eq_none.mpr fun x hx hsame => ?_
    obtain ⟨k, hk, rfl⟩ := List.getElem_of_mem hx
    rw [List.length_take, List.length_drop] at hk
    have hfalse := hflat (t + k) (by omega) (by omega)
    rw [entryAt_eq (by omega)] at hfalse
    rw [List.getElem_take, List.getElem_drop] at hsame
    rw [isFloating_of_sameNumber hsame] at hfalse
    cases hfalse
  rw [hnone, Option.or_none]

/-- A turn adds entries and maps no other floating point entry than the one at `t`. -/
theorem extend {new : Entries} (h : FloatsMerged old scratch t m)
    (hnew : m'.entries = m.entries ++ new) (hfits : m'.entries.length ≤ m'.length)
    (hfind : ∀ e, m'.entries.find? (sameNumber e) =
      (old.find? (sameNumber e)).or ((scratch.take t').find? (sameNumber e)))
    (hmapped : Mapped scratch.length m'.map)
    (hmap : ∀ j, j ≠ t → isFloating (entryAt scratch j) = true →
      m'.map.findNewIndex j = m.map.findNewIndex j)
    (hturn : isFloating (entryAt scratch t) = true → m'.map.newIndex t < m'.entries.length ∧
      entryAt m'.entries (m'.map.newIndex t) = sharedWith old scratch t)
    (hlt : t < t') (hflat : ∀ j, t < j → j < t' → isFloating (entryAt scratch j) = false) :
    FloatsMerged old scratch t' m' := by
  have hold : ∀ i < m.entries.length, entryAt m'.entries i = entryAt m.entries i := fun i hi => by
    rw [hnew, entryAt_append hi]
  have hlength : m.entries.length ≤ m'.entries.length := by
    rw [hnew, List.length_append]
    exact Nat.le_add_right ..
  refine ⟨lt_of_lt_of_le h.pos hlength, by rw [hold 0 h.pos, h.first], hfits,
    le_trans h.oldLength hlength, fun i hi e => ?_, fun i hi hfloating => ?_, hfind, hmapped,
    fun j hj hfloating => ?_, fun j hj hfloating => ?_⟩
  · rw [hold i (lt_of_lt_of_le hi h.oldLength), h.same i hi]
  · rw [hold i (lt_of_lt_of_le hi h.oldLength), h.oldFloating i hi hfloating]
  · rw [hmap j (by omega) hfloating]
    exact h.unmapped j (by omega) hfloating
  · by_cases hturn' : j = t
    · subst hturn'
      exact hturn hfloating
    · have hbefore : j < t := by
        by_contra hge
        rw [hflat j (by omega) hj] at hfloating
        cases hfloating
      have hindex : m'.map.newIndex j = m.map.newIndex j := by
        rw [IndexMap.newIndex, IndexMap.newIndex, hmap j hturn' hfloating]
      obtain ⟨hmem, heq⟩ := h.merged j hbefore hfloating
      rw [hindex, hold _ hmem]
      exact ⟨lt_of_lt_of_le hmem hlength, heq⟩

/-- A turn of an entry that is not floating. -/
theorem grows (h : FloatsMerged old scratch t m) (hgrows : Grows scratch m m') (hlt : t < t')
    (hflat : ∀ j, t ≤ j → j < t' → isFloating (entryAt scratch j) = false) :
    FloatsMerged old scratch t' m' := by
  obtain ⟨new, hnew, hnewFlat⟩ := hgrows.entries
  refine h.extend hnew (hgrows.fits h.fits) (fun e => ?_) (hgrows.mapped h.mapped)
    (fun j _ hfloating => hgrows.map h.mapped j hfloating) (fun hfloating => ?_) hlt
    fun j hj => hflat j (le_of_lt hj)
  · have hnone : new.find? (sameNumber e) = none := by
      refine List.find?_eq_none.mpr fun x hx hsame => ?_
      have hfalse := hnewFlat x hx
      rw [isFloating_of_sameNumber hsame] at hfalse
      cases hfalse
    rw [hnew, List.find?_append, hnone, Option.or_none, h.find, find_take (le_of_lt hlt) hflat]
  · rw [hflat t le_rfl hlt] at hfloating
    cases hfloating

/-- The first of the entries before `t'` that is equal, when `t` is the last that is floating. -/
theorem find_take_turn (hi : t < scratch.length) (hlt : t < t')
    (hflat : ∀ j, t < j → j < t' → isFloating (entryAt scratch j) = false) (e : CpEntry) :
    (scratch.take t').find? (sameNumber e) =
      ((scratch.take t).find? (sameNumber e)).or ([entryAt scratch t].find? (sameNumber e)) := by
  rw [find_take hlt hflat, entryAt_eq hi, ← List.find?_append, List.take_append_getElem]

/-- A turn of a floating point entry that is equal to one that is there. -/
theorem find_shared (h : FloatsMerged old scratch t m) (hi : t < scratch.length) (hlt : t < t')
    (hflat : ∀ j, t < j → j < t' → isFloating (entryAt scratch j) = false)
    (hsome : (m.entries.find? (sameNumber (entryAt scratch t))).isSome) (e : CpEntry) :
    m.entries.find? (sameNumber e) =
      (old.find? (sameNumber e)).or ((scratch.take t').find? (sameNumber e)) := by
  rw [find_take_turn hi hlt hflat, ← Option.or_assoc, ← h.find]
  cases hfind : m.entries.find? (sameNumber e) with
  | some x => rfl
  | none =>
    have hother : sameNumber e (entryAt scratch t) = false := by
      by_contra hsame
      obtain ⟨x, hx⟩ := Option.isSome_iff_exists.mp hsome
      have hmem := List.mem_of_find?_eq_some hx
      have hxsame := List.find?_some hx
      exact List.find?_eq_none.mp hfind x hmem
        (sameNumber_trans (by simpa using hsame) hxsame)
    simp [hother]

theorem sharedWith_of_not (h : FloatsMerged old scratch t m)
    (hnot : ¬(t < old.length ∧ sameNumber (entryAt scratch t) (entryAt old t) = true)) :
    sharedWith old scratch t =
      ((m.entries.find? (sameNumber (entryAt scratch t))).or
        ((scratch.drop t).find? (sameNumber (entryAt scratch t)))).getD (entryAt scratch t) := by
  have hsplit : scratch.find? (sameNumber (entryAt scratch t)) =
      ((scratch.take t).find? (sameNumber (entryAt scratch t))).or
        ((scratch.drop t).find? (sameNumber (entryAt scratch t))) := by
    rw [← List.find?_append, List.take_append_drop]
  rw [sharedWith, if_neg hnot, hsplit, h.find, Option.or_assoc]

/-- The equal entry at the same index is shared. -/
theorem sameIndex (h : FloatsMerged old scratch t m) (hi : t < scratch.length)
    (hold : t < old.length) (hsame : sameNumber (entryAt scratch t) (entryAt m.entries t) = true)
    (hlt : t < t') (hflat : ∀ j, t < j → j < t' → isFloating (entryAt scratch j) = false) :
    FloatsMerged old scratch t' m := by
  have hmem : t < m.entries.length := lt_of_lt_of_le hold h.oldLength
  have hsome : (m.entries.find? (sameNumber (entryAt scratch t))).isSome := by
    rw [List.find?_isSome]
    exact ⟨m.entries[t], List.getElem_mem hmem, entryAt_eq hmem ▸ hsame⟩
  refine h.extend (List.append_nil _).symm h.fits (h.find_shared hi hlt hflat hsome) h.mapped
    (fun _ _ _ => rfl) (fun hfloating => ?_) hlt hflat
  rw [IndexMap.newIndex_of_eq_zero (h.unmapped t le_rfl hfloating)]
  have hsameOld := h.same t hold (entryAt scratch t) ▸ hsame
  refine ⟨hmem, ?_⟩
  rw [h.oldFloating t hold (isFloating_of_sameNumber hsameOld), sharedWith,
    if_pos ⟨hold, hsameOld⟩]

/-- The first equal entry is shared. -/
theorem elsewhere {k : Nat} (h : FloatsMerged old scratch t m) (hpos : 0 < t)
    (hi : t < scratch.length)
    (hnot : ¬(t < old.length ∧ sameNumber (entryAt scratch t) (entryAt old t) = true))
    (hk : k ≠ 0) (hmem : k < m.entries.length)
    (hfind : m.entries.find? (sameNumber (entryAt scratch t)) = some (entryAt m.entries k))
    (hlt : t < t') (hflat : ∀ j, t < j → j < t' → isFloating (entryAt scratch j) = false) :
    FloatsMerged old scratch t' (m.mapIndex t k) := by
  refine h.extend (List.append_nil _).symm h.fits
    (h.find_shared hi hlt hflat (by rw [hfind]; rfl)) (h.mapped.mapIndex t k)
    (fun j hj _ => h.mapped.findNewIndex_mapIndex_of_ne k hj) (fun hfloating => ?_) hlt hflat
  have hindex : (m.mapIndex t k).map.newIndex t = k :=
    h.mapped.newIndex_mapIndex (h.unmapped t le_rfl hfloating) ⟨hpos, hi⟩ hk
  rw [hindex, h.sharedWith_of_not hnot, hfind]
  exact ⟨hmem, rfl⟩

/-- An entry that is equal to none is appended. -/
theorem appended {tail : Entries} (h : FloatsMerged old scratch t m) (hpos : 0 < t)
    (hi : t < scratch.length)
    (hnot : ¬(t < old.length ∧ sameNumber (entryAt scratch t) (entryAt old t) = true))
    (hfind : m.entries.find? (sameNumber (entryAt scratch t)) = none)
    (htail : ∀ e ∈ tail, isFloating e = false)
    (happend : m.append t (entryAt scratch t :: tail) = .ok m')
    (hlt : t < t') (hflat : ∀ j, t < j → j < t' → isFloating (entryAt scratch j) = false) :
    FloatsMerged old scratch t' m' := by
  have hshared : sharedWith old scratch t = entryAt scratch t := by
    rw [h.sharedWith_of_not hnot, hfind, List.drop_eq_getElem_cons hi, ← entryAt_eq hi,
      List.find?_cons]
    cases hself : sameNumber (entryAt scratch t) (entryAt scratch t) with
    | true => rfl
    | false =>
      have hnone : (scratch.drop (t + 1)).find? (sameNumber (entryAt scratch t)) = none := by
        refine List.find?_eq_none.mpr fun x _ hsame => ?_
        rw [sameNumber_trans hsame (sameNumber_symm hsame)] at hself
        cases hself
      rw [hnone]
      rfl
  obtain ⟨m₁, hput, hret⟩ := bind_eq_ok happend
  unfold Merge.put at hput
  split at hput
  next hfits =>
    cases hput
    cases hret
    have hfind' : ∀ e, (m.entries ++ entryAt scratch t :: tail).find? (sameNumber e) =
        (old.find? (sameNumber e)).or ((scratch.take t').find? (sameNumber e)) := by
      intro e
      have hnone : tail.find? (sameNumber e) = none := by
        refine List.find?_eq_none.mpr fun x hx hsame => ?_
        have hfalse := htail x hx
        rw [isFloating_of_sameNumber hsame] at hfalse
        cases hfalse
      rw [find_take_turn hi hlt hflat, ← Option.or_assoc, ← h.find, ← List.singleton_append,
        List.find?_append, List.find?_append, hnone, Option.or_none]
    have hmem : m.entries.length < (m.entries ++ entryAt scratch t :: tail).length := by
      rw [List.length_append, List.length_cons]
      omega
    have hat : entryAt (m.entries ++ entryAt scratch t :: tail) m.entries.length =
        entryAt scratch t := by
      rw [entryAt_eq hmem, List.getElem_append_right le_rfl]
      simp
    rw [← List.length_append] at hfits
    split
    next hne =>
      refine h.extend rfl hfits hfind' (h.mapped.mapIndex t _)
        (fun j hj _ => h.mapped.findNewIndex_mapIndex_of_ne _ hj) (fun hfloating => ?_) hlt hflat
      have hindex : (m.map.mapIndex t m.entries.length).newIndex t = m.entries.length :=
        h.mapped.newIndex_mapIndex (h.unmapped t le_rfl hfloating) ⟨hpos, hi⟩ (ne_of_gt h.pos)
      rw [hshared]
      change (m.map.mapIndex t m.entries.length).newIndex t < _ ∧
        entryAt _ ((m.map.mapIndex t m.entries.length).newIndex t) = _
      rw [hindex]
      exact ⟨hmem, hat⟩
    next heq =>
      refine h.extend rfl hfits hfind' h.mapped (fun _ _ _ => rfl) (fun hfloating => ?_) hlt hflat
      rw [hshared]
      change m.map.newIndex t < _ ∧ entryAt _ (m.map.newIndex t) = _
      rw [IndexMap.newIndex_of_eq_zero (h.unmapped t le_rfl hfloating)]
      have heq := not_not.mp heq
      exact ⟨lt_of_eq_of_lt heq hmem, (congrArg (entryAt _) heq).trans hat⟩
  next => cases hput

end FloatsMerged

/-! ## Turns and passes -/

theorem appendEntry_floating {fuel t : Nat} {scratch : Entries}
    (h : isFloating (entryAt scratch t) = true) (m : Merge) :
    ∃ tail, (∀ e ∈ tail, isFloating e = false) ∧
      appendEntry scratch (fuel + 1) t m = m.append t (entryAt scratch t :: tail) := by
  unfold appendEntry
  cases hentry : entryAt scratch t with
  | float f => exact ⟨[], by simp, rfl⟩
  | double d => exact ⟨[.invalid], by simp [isFloating], rfl⟩
  | _ => rw [hentry] at h; cases h

/-- An entry that is not at the same index. -/
theorem findOrAppend_floats {old scratch : Entries} {t : Nat} {m m' : Merge} {sameIndex : Bool}
    (hbuilt : Built scratch) (h : FloatsMerged old scratch t m) (hpos : 0 < t)
    (hi : t < scratch.length) (hpaired : Paired (scratch.drop t))
    (hnot : ¬(t < old.length ∧ sameNumber (entryAt scratch t) (entryAt old t) = true))
    (hrun : findOrAppend scratch t sameIndex m = .ok m') :
    FloatsMerged old scratch (t + width (entryAt scratch t)) m' := by
  have hlt : t < t + width (entryAt scratch t) := by
    have := one_le_width (entryAt scratch t)
    omega
  have hflat : ∀ j, t < j → j < t + width (entryAt scratch t) →
      isFloating (entryAt scratch j) = false := by
    intro j hj hj'
    rw [hpaired.second hi hj hj']
    rfl
  cases hfloating : isFloating (entryAt scratch t) with
  | true =>
    obtain ⟨k, hk, hcases⟩ := findMatchingEntry_floating hfloating h.fits h.first
    rw [findOrAppend, hk, bind_ok] at hrun
    rcases hcases with ⟨rfl, hfind⟩ | ⟨hne, hmem, hfind⟩
    · obtain ⟨tail, htail, happend⟩ := appendEntry_floating hfloating m
      rw [if_neg (not_not.mpr rfl), happend] at hrun
      exact h.appended hpos hi hnot hfind htail hrun hlt hflat
    · rw [if_pos hne] at hrun
      split at hrun
      next => cases hrun
      next =>
        cases hrun
        exact h.elsewhere hpos hi hnot hne hmem hfind hlt hflat
  | false =>
    refine h.grows ?_ hlt fun j hj hj' => ?_
    · obtain ⟨found, -, hrun⟩ := bind_eq_ok hrun
      split at hrun
      next =>
        split at hrun
        next => cases hrun
        next =>
          cases hrun
          exact .mapIndex hfloating
      next => exact .appendEntry hbuilt hfloating hrun
    · by_cases heq : j = t
      · rw [heq, hfloating]
      · exact hflat j (by omega) hj'

theorem turnCommon_floats {old scratch : Entries} {t : Nat} {m m' : Merge}
    (hbuilt : Built scratch) (h : FloatsMerged old scratch t m) (hpos : 0 < t)
    (hi : t < scratch.length) (hold : t < old.length) (hpaired : Paired (scratch.drop t))
    (hrun : turnCommon scratch t m = .ok m') :
    FloatsMerged old scratch (t + width (entryAt scratch t)) m' := by
  have hlt : t < t + width (entryAt scratch t) := by
    have := one_le_width (entryAt scratch t)
    omega
  obtain ⟨same, hcompare, hrun⟩ := bind_eq_ok hrun
  cases hfloating : isFloating (entryAt scratch t) with
  | true =>
    rw [compareEntryTo_floating hfloating] at hcompare
    cases hcompare
    split at hrun
    next hsame =>
      cases hrun
      refine h.sameIndex hi hold hsame hlt fun j hj hj' => ?_
      rw [hpaired.second hi hj hj']
      rfl
    next hsame =>
      have hmismatch :
          ¬(isUnresolvedClassMismatch (entryAt scratch t) (entryAt m.entries t) = true ∨
            isUnresolvedStringMismatch (entryAt scratch t) (entryAt m.entries t) = true) := by
        generalize entryAt scratch t = e at hfloating ⊢
        cases e <;>
          simp_all [isFloating, isUnresolvedClassMismatch, isUnresolvedStringMismatch]
      rw [if_neg hmismatch] at hrun
      refine findOrAppend_floats hbuilt h hpos hi hpaired (fun hand => hsame ?_) hrun
      rw [h.same t hold]
      exact hand.2
  | false =>
    have hskip : FloatsMerged old scratch (t + width (entryAt scratch t)) m := by
      refine h.grows .refl hlt fun j hj hj' => ?_
      by_cases heq : j = t
      · rw [heq, hfloating]
      · rw [hpaired.second hi (by omega) hj']
        rfl
    have hnot : ¬(t < old.length ∧ sameNumber (entryAt scratch t) (entryAt old t) = true) := by
      rintro ⟨-, hsame⟩
      rw [isFloating_of_sameNumber (sameNumber_symm hsame)] at hfloating
      cases hfloating
    split at hrun
    next => cases hrun; exact hskip
    next =>
      split at hrun
      next => cases hrun; exact hskip
      next => exact findOrAppend_floats hbuilt h hpos hi hpaired hnot hrun

/-- The turns of a pass from `low` on. -/
theorem pass_floats {old scratch : Entries} {turn : Nat → Merge → Except Stop Merge}
    (low : Nat) {limit fuel t t' : Nat} {m m' : Merge} (hlimit : limit ≤ scratch.length)
    (hturn : ∀ t m m', FloatsMerged old scratch t m → 0 < t → low ≤ t → t < limit →
      Paired (scratch.drop t) → turn t m = .ok m' →
        FloatsMerged old scratch (t + width (entryAt scratch t)) m')
    (h : FloatsMerged old scratch t m) (hpos : 0 < t) (hlow : low ≤ t)
    (hpaired : Paired (scratch.drop t)) (hfuel : limit ≤ t + fuel)
    (hrun : pass scratch turn limit fuel t m = .ok (t', m')) :
    FloatsMerged old scratch t' m' ∧ 0 < t' ∧ limit ≤ t' ∧ Paired (scratch.drop t') := by
  have hpass := pass_concludes (P := FloatsMerged old scratch) low hlimit
    (fun t m hm ht hlow' hlt hdrop => Concludes.of_run fun m' hm' =>
      hturn t m m' hm ht hlow' hlt hdrop hm') h hpos hlow hpaired hfuel
  exact hpass.of_ok hrun

/-! ## The merge -/

theorem sameNumber_revert (e e' : CpEntry) : sameNumber e (revert e') = sameNumber e e' := by
  cases e <;> cases e' <;> rfl

theorem revert_of_isFloating {e : CpEntry} (h : isFloating e = true) : revert e = e := by
  cases e <;> first | rfl | cases h

theorem find_map_revert (entries : Entries) (e : CpEntry) :
    (entries.map revert).find? (sameNumber e) = entries.find? (sameNumber e) := by
  induction entries with
  | nil => rfl
  | cons head rest ih =>
    rw [List.map_cons, List.find?_cons, List.find?_cons, sameNumber_revert, ih]
    cases hsame : sameNumber e head with
    | true => rw [revert_of_isFloating (isFloating_of_sameNumber hsame)]
    | false => rfl

theorem entryAt_map_revert (entries : Entries) (i : Nat) :
    entryAt (entries.map revert) i = revert (entryAt entries i) := by
  by_cases hi : i < entries.length
  · rw [entryAt_eq hi, entryAt_eq (by rwa [List.length_map]), List.getElem_map]
  · rw [entryAt_beyond (not_lt.mp hi), entryAt_beyond (by rw [List.length_map]; omega)]
    rfl

/-- What pass 0 leaves, with the first entry not used. -/
def reverted (old : Entries) : Entries := .invalid :: (old.drop 1).map revert

theorem reverted_eq {old : Entries} (h : Laid old) : reverted old = old.map revert := by
  cases old with
  | nil => exact absurd h.pos (lt_irrefl 0)
  | cons head rest =>
    have hfirst : head = .invalid := h.first
    rw [hfirst]
    rfl

theorem floatsMerged_start {old scratch : Entries} (hold : Laid old) (hscratch : Laid scratch) :
    FloatsMerged old scratch 1
      ⟨reverted old, old.length + scratch.length, .empty scratch.length, []⟩ := by
  have hlength : (reverted old).length = old.length := by rw [reverted_eq hold, List.length_map]
  have hflat : ∀ j, 0 ≤ j → j < 1 → isFloating (entryAt scratch j) = false := by
    intro j _ hj
    rw [Nat.lt_one_iff.mp hj, hscratch.first]
    rfl
  refine ⟨hlength ▸ hold.pos, rfl, by simp [hlength], le_of_eq hlength.symm, fun i _ e => ?_,
    fun i _ hfloating => ?_, fun e => ?_, .empty _, fun j _ _ => ?_, fun j hj hfloating => ?_⟩
  · rw [reverted_eq hold, entryAt_map_revert, sameNumber_revert]
  · rw [reverted_eq hold, entryAt_map_revert, revert_of_isFloating hfloating]
  · rw [reverted_eq hold, find_map_revert, FloatsMerged.find_take (Nat.zero_le 1) hflat]
    simp
  · rfl
  · rw [hflat j (Nat.zero_le j) hj] at hfloating
    cases hfloating

/-- The floating point entries of both pools are in the merged one, bit for bit. -/
def FloatsSurvive (old scratch : Entries) (m : Merge) : Prop :=
  (∀ i, isFloating (entryAt old i) = true → entryAt m.entries i = entryAt old i) ∧
    ∀ i, isFloating (entryAt scratch i) = true →
      entryAt m.entries (m.map.newIndex i) = entryAt scratch i

theorem lt_length_of_isFloating {entries : Entries} {i : Nat}
    (h : isFloating (entryAt entries i) = true) : i < entries.length := by
  by_contra hge
  rw [entryAt_beyond (not_lt.mp hge)] at h
  cases h

/-- After a merge the floating point entries of the old pool are unchanged, and those of the new
one survive exactly when each has the bits of the entry that it shares. -/
theorem floatsSurvive_iff {old scratch : ConstantPool} (hold : Laid old.entries)
    (hscratch : Built scratch.entries) {m : Merge} (h : mergeConstantPools old scratch = .ok m) :
    FloatsSurvive old.entries scratch.entries m ↔
      ∀ i, isFloating (entryAt scratch.entries i) = true →
        sharedWith old.entries scratch.entries i = entryAt scratch.entries i := by
  rw [mergeConstantPools, copyOld_eq hold.paired, bind_ok] at h
  obtain ⟨⟨t, m₁⟩, hpass, h⟩ := bind_eq_ok h
  obtain ⟨⟨t', m₂⟩, hpass', h⟩ := bind_eq_ok h
  cases h
  have hstart := floatsMerged_start hold hscratch.toLaid
  obtain ⟨hcommon, hpos, hmin, hpaired⟩ := pass_floats 0 (Nat.min_le_right ..)
    (fun t m m' hm ht _ hlt hdrop hturn => turnCommon_floats hscratch hm ht
      (lt_of_lt_of_le hlt (Nat.min_le_right ..)) (lt_of_lt_of_le hlt (Nat.min_le_left ..))
      hdrop hturn) hstart Nat.one_pos (Nat.zero_le _) hscratch.paired (by omega) hpass
  obtain ⟨hmerged, -, hend, -⟩ := pass_floats t le_rfl
    (fun t' m m' hm ht hle hlt hdrop hturn => findOrAppend_floats hscratch hm ht hlt hdrop
      (fun hand => by omega) hturn) hcommon hpos le_rfl hpaired (by omega) hpass'
  constructor
  · rintro ⟨-, hsurvive⟩ i hi
    rw [← (hmerged.merged i (lt_of_lt_of_le (lt_length_of_isFloating hi) hend) hi).2]
    exact hsurvive i hi
  · intro hshared
    refine ⟨fun i hi => hmerged.oldFloating i (lt_length_of_isFloating hi) hi, fun i hi => ?_⟩
    rw [(hmerged.merged i (lt_of_lt_of_le (lt_length_of_isFloating hi) hend) hi).2]
    exact hshared i hi

/-- A pool with a 0 and a NaN. -/
def zeroAndNaN : ConstantPool := ⟨[.invalid, .float 0, .float 0x7fc00000], none⟩

theorem built_zeroAndNaN : Built zeroAndNaN.entries where
  pos := by decide
  first := rfl
  paired := trivial
  nameAndType {i name signature} h := by
    rcases i with _ | _ | _ | i <;> cases h
  ref {i klass nameAndType} h := by
    rcases i with _ | _ | _ | i <;> cases h

/-- The merge of the pool with itself, in which the NaN is added once more. -/
theorem floatsSurvive_iff_zeroAndNaN :
    ∃ m, mergeConstantPools zeroAndNaN zeroAndNaN = .ok m ∧
      (FloatsSurvive zeroAndNaN.entries zeroAndNaN.entries m ↔
        ∀ i, isFloating (entryAt zeroAndNaN.entries i) = true →
          sharedWith zeroAndNaN.entries zeroAndNaN.entries i = entryAt zeroAndNaN.entries i) :=
  ⟨_, rfl, floatsSurvive_iff built_zeroAndNaN.toLaid built_zeroAndNaN rfl⟩

/-- The new pool has -0 where the old one has 0: the merged pool has 0. -/
theorem not_floatsSurvive_negativeZero :
    ∃ m, mergeConstantPools zeroAndNaN ⟨[.invalid, .float 0x80000000], none⟩ = .ok m ∧
      ¬FloatsSurvive zeroAndNaN.entries [.invalid, .float 0x80000000] m := by
  refine ⟨_, rfl, fun hsurvive => ?_⟩
  have hzero := hsurvive.2 1 rfl
  exact absurd hzero (by decide)

end HotSpot.PoolMerge
