import Mathlib.Data.List.Count
import Mathlib.Data.List.Nodup

/-! # Dispatch entries of redefined methods

When classes are redefined, `adjust_method_entries` of `klassVtable.cpp` replaces the old versions
of methods in the vtable and in the itable of a class by the new ones. A method may occupy several
entries of either table.
-/

namespace HotSpot

/-! ## The tables -/

section Tables

variable {M : Type} [DecidableEq M]

/-- What the search of the vtable does at an index. -/
def replaceMethod (oldMethod newMethod : M) (entry : Option M) : Option M :=
  if entry = some oldMethod then some newMethod else entry

/-- The search of the vtable goes through all of its entries. -/
def replaceEntries (oldMethod newMethod : M) (table : List (Option M)) : List (Option M) :=
  table.map (replaceMethod oldMethod newMethod)

/-- The search of the itable breaks off at the first entry. -/
def replaceEntry (oldMethod newMethod : M) : List (Option M) → List (Option M)
  | [] => []
  | entry :: entries =>
    if entry = some oldMethod then some newMethod :: entries
    else entry :: replaceEntry oldMethod newMethod entries

/-- `klassVtable::adjust_method_entries` -/
def KlassVtable.adjustMethodEntries (oldMethods newMethods : List M) (table : List (Option M)) :
    List (Option M) :=
  (oldMethods.zip newMethods).foldl (fun table pair => replaceEntries pair.1 pair.2 table) table

/-- `klassItable::adjust_method_entries` -/
def KlassItable.adjustMethodEntries (oldMethods newMethods : List M) (table : List (Option M)) :
    List (Option M) :=
  (oldMethods.zip newMethods).foldl (fun table pair => replaceEntry pair.1 pair.2 table) table

/-- What the callers pass: the old and the new versions of the methods of a class. -/
structure MatchingMethods (oldMethods newMethods : List M) : Prop where
  length_eq : oldMethods.length = newMethods.length
  oldMethods_nodup : oldMethods.Nodup
  newMethods_nodup : newMethods.Nodup
  disjoint : ∀ m ∈ newMethods, m ∉ oldMethods

/-- Every old method has given way to its new version, and nothing else has changed. -/
structure Adjusted (oldMethods newMethods : List M) (table table' : List (Option M)) : Prop where
  length_eq : table'.length = table.length
  replaced : ∀ (index j : Nat) (oldMethod newMethod : M), table[index]? = some (some oldMethod) →
    oldMethods[j]? = some oldMethod → newMethods[j]? = some newMethod →
    table'[index]? = some (some newMethod)
  unchanged : ∀ (index : Nat) (entry : Option M), table[index]? = some entry →
    (∀ m ∈ oldMethods, entry ≠ some m) →
    table'[index]? = some entry
  noStale : ∀ m ∈ oldMethods, some m ∉ table'

end Tables

/-! ## One method -/

section Replacement

variable {M : Type} [DecidableEq M] {oldMethod newMethod m : M}

theorem replaceMethod_eq_iff (hold : m ≠ oldMethod) (hnew : m ≠ newMethod) (entry : Option M) :
    replaceMethod oldMethod newMethod entry = some m ↔ entry = some m := by
  unfold replaceMethod
  split
  next hentry => simp [hentry, hnew.symm, hold.symm]
  next => exact Iff.rfl

theorem count_replaceEntries_of_ne (hold : m ≠ oldMethod) (hnew : m ≠ newMethod)
    (table : List (Option M)) :
    (replaceEntries oldMethod newMethod table).count (some m) = table.count (some m) := by
  unfold replaceEntries
  rw [List.count_eq_countP, List.count_eq_countP, List.countP_map]
  refine List.countP_congr fun entry _ => ?_
  simpa using replaceMethod_eq_iff hold hnew entry

theorem count_replaceEntry_of_ne (hold : m ≠ oldMethod) (hnew : m ≠ newMethod)
    (table : List (Option M)) :
    (replaceEntry oldMethod newMethod table).count (some m) = table.count (some m) := by
  induction table with
  | nil => rfl
  | cons entry entries ih =>
    unfold replaceEntry
    split
    next hentry => simp [hentry, hnew.symm, hold.symm]
    next => rw [List.count_cons, List.count_cons, ih]

/-- The entries after the first one stay. -/
theorem count_replaceEntry_self (hne : oldMethod ≠ newMethod) (table : List (Option M)) :
    (replaceEntry oldMethod newMethod table).count (some oldMethod) =
      table.count (some oldMethod) - 1 := by
  induction table with
  | nil => rfl
  | cons entry entries ih =>
    unfold replaceEntry
    split
    next hentry => simp [hentry, hne.symm]
    next hentry => rw [List.count_cons_of_ne hentry, List.count_cons_of_ne hentry, ih]

theorem replaceEntries_of_not_mem {table : List (Option M)} (hnone : some oldMethod ∉ table) :
    replaceEntries oldMethod newMethod table = table := by
  unfold replaceEntries
  calc table.map (replaceMethod oldMethod newMethod) = table.map id := by
        refine List.map_congr_left fun entry hentry => ?_
        exact if_neg fun heq : entry = some oldMethod => hnone (heq ▸ hentry)
    _ = table := List.map_id table

/-- Both searches do the same for a method that has one entry at most. -/
theorem replaceEntry_eq_replaceEntries (table : List (Option M))
    (hcount : table.count (some oldMethod) ≤ 1) :
    replaceEntry oldMethod newMethod table = replaceEntries oldMethod newMethod table := by
  induction table with
  | nil => rfl
  | cons entry entries ih =>
    unfold replaceEntry
    split
    next hentry =>
        rw [hentry, List.count_cons_self] at hcount
        have hnone : some oldMethod ∉ entries := by
          rw [← List.count_eq_zero]
          omega
        have hrest : replaceEntries oldMethod newMethod entries = entries :=
          replaceEntries_of_not_mem hnone
        unfold replaceEntries at hrest ⊢
        rw [List.map_cons, hrest, hentry, replaceMethod, if_pos rfl]
    next hentry =>
        rw [List.count_cons_of_ne hentry] at hcount
        rw [ih hcount, replaceEntries, replaceEntries, List.map_cons, replaceMethod,
          if_neg hentry]

end Replacement

/-! ## All methods -/

section Adjustment

variable {M : Type}

/-- The old methods of the pairs that the loop goes through are distinct, and no new one is among
them. -/
structure Renaming (pairs : List (M × M)) : Prop where
  nodup : (pairs.map Prod.fst).Nodup
  disjoint : ∀ pair ∈ pairs, pair.2 ∉ pairs.map Prod.fst

theorem Renaming.tail {pair : M × M} {pairs : List (M × M)} (h : Renaming (pair :: pairs)) :
    Renaming pairs where
  nodup := (List.nodup_cons.1 h.nodup).2
  disjoint other hother hmem :=
    h.disjoint other (List.mem_cons_of_mem _ hother) (List.mem_cons_of_mem _ hmem)

/-- A later old method is neither version of the first one. -/
theorem Renaming.ne_head {pair : M × M} {pairs : List (M × M)} (h : Renaming (pair :: pairs))
    {m : M} (hm : m ∈ pairs.map Prod.fst) : m ≠ pair.1 ∧ m ≠ pair.2 := by
  refine ⟨?_, ?_⟩
  · rintro rfl
    exact (List.nodup_cons.1 h.nodup).1 hm
  · rintro rfl
    exact h.disjoint pair List.mem_cons_self (List.mem_cons_of_mem _ hm)

theorem MatchingMethods.renaming {oldMethods newMethods : List M}
    (h : MatchingMethods oldMethods newMethods) : Renaming (oldMethods.zip newMethods) := by
  have hfst : (oldMethods.zip newMethods).map Prod.fst = oldMethods :=
    List.map_fst_zip (Nat.le_of_eq h.length_eq)
  refine ⟨?_, ?_⟩
  · rw [hfst]
    exact h.oldMethods_nodup
  · rw [hfst]
    intro pair hpair
    exact h.disjoint _ (List.of_mem_zip hpair).2

variable [DecidableEq M]

/-- What all of the searches do to one entry of the vtable. -/
def replaceAlong (pairs : List (M × M)) (entry : Option M) : Option M :=
  pairs.foldl (fun entry pair => replaceMethod pair.1 pair.2 entry) entry

theorem replaceAlong_of_not_mem {pairs : List (M × M)} {entry : Option M}
    (hentry : ∀ m ∈ pairs.map Prod.fst, entry ≠ some m) : replaceAlong pairs entry = entry := by
  induction pairs with
  | nil => rfl
  | cons pair pairs ih =>
    have hhead : replaceMethod pair.1 pair.2 entry = entry :=
      if_neg (hentry pair.1 List.mem_cons_self)
    rw [replaceAlong, List.foldl_cons, hhead]
    exact ih fun m hm => hentry m (List.mem_cons_of_mem _ hm)

theorem replaceAlong_of_mem {pairs : List (M × M)} (h : Renaming pairs) {pair : M × M}
    (hpair : pair ∈ pairs) : replaceAlong pairs (some pair.1) = some pair.2 := by
  induction pairs with
  | nil => cases hpair
  | cons head pairs ih =>
    rcases List.mem_cons.1 hpair with rfl | hmem
    · have hhead : replaceMethod pair.1 pair.2 (some pair.1) = some pair.2 := if_pos rfl
      rw [replaceAlong, List.foldl_cons, hhead]
      refine replaceAlong_of_not_mem fun m hm heq => ?_
      exact (h.ne_head hm).2 (Option.some.inj heq).symm
    · have hne := h.ne_head (List.mem_map_of_mem hmem)
      have hhead : replaceMethod head.1 head.2 (some pair.1) = some pair.1 :=
        if_neg fun heq => hne.1 (Option.some.inj heq)
      rw [replaceAlong, List.foldl_cons, hhead]
      exact ih h.tail hmem

/-- The vtable is searched once for each method; an entry sees them all. -/
theorem KlassVtable.adjustMethodEntries_eq_map (oldMethods newMethods : List M)
    (table : List (Option M)) :
    KlassVtable.adjustMethodEntries oldMethods newMethods table =
      table.map (replaceAlong (oldMethods.zip newMethods)) := by
  unfold KlassVtable.adjustMethodEntries
  induction oldMethods.zip newMethods generalizing table with
  | nil => exact (List.map_id table).symm
  | cons pair pairs ih =>
    rw [List.foldl_cons, ih, replaceEntries, List.map_map]
    rfl

theorem KlassVtable.adjusted {oldMethods newMethods : List M}
    (h : MatchingMethods oldMethods newMethods) (table : List (Option M)) :
    Adjusted oldMethods newMethods table
      (KlassVtable.adjustMethodEntries oldMethods newMethods table) := by
  have hfst : (oldMethods.zip newMethods).map Prod.fst = oldMethods :=
    List.map_fst_zip (Nat.le_of_eq h.length_eq)
  have hstays : ∀ entry, (∀ m ∈ oldMethods, entry ≠ some m) →
      replaceAlong (oldMethods.zip newMethods) entry = entry := by
    intro entry hentry
    apply replaceAlong_of_not_mem
    rwa [hfst]
  rw [adjustMethodEntries_eq_map]
  refine ⟨List.length_map _, ?_, ?_, ?_⟩
  · intro index j oldMethod newMethod hentry hold hnew
    have hpair : (oldMethod, newMethod) ∈ oldMethods.zip newMethods :=
      List.mem_of_getElem? (List.getElem?_zip_eq_some.2 ⟨hold, hnew⟩)
    rw [List.getElem?_map, hentry, Option.map_some, replaceAlong_of_mem h.renaming hpair]
  · intro index entry hentry hother
    rw [List.getElem?_map, hentry, Option.map_some, hstays entry hother]
  · intro m hm hmem
    obtain ⟨entry, hentry, hafter⟩ := List.mem_map.1 hmem
    by_cases hother : ∀ m ∈ oldMethods, entry ≠ some m
    · rw [hstays entry hother] at hafter
      exact hother m hm hafter
    · push Not at hother
      obtain ⟨oldMethod, hold, rfl⟩ := hother
      rw [← hfst] at hold
      obtain ⟨pair, hpair, rfl⟩ := List.mem_map.1 hold
      rw [replaceAlong_of_mem h.renaming hpair] at hafter
      cases hafter
      exact h.disjoint _ (List.of_mem_zip hpair).2 hm

/-- Methods with one entry at most are replaced in the itable as they would be in a vtable. -/
theorem KlassItable.adjustMethodEntries_eq {oldMethods newMethods : List M}
    (h : MatchingMethods oldMethods newMethods) (table : List (Option M))
    (hcount : ∀ m ∈ oldMethods, table.count (some m) ≤ 1) :
    KlassItable.adjustMethodEntries oldMethods newMethods table =
      KlassVtable.adjustMethodEntries oldMethods newMethods table := by
  unfold KlassItable.adjustMethodEntries KlassVtable.adjustMethodEntries
  have hfst : (oldMethods.zip newMethods).map Prod.fst = oldMethods :=
    List.map_fst_zip (Nat.le_of_eq h.length_eq)
  rw [← hfst] at hcount
  have hrenaming := h.renaming
  generalize oldMethods.zip newMethods = pairs at hcount hrenaming
  induction pairs generalizing table with
  | nil => rfl
  | cons pair pairs ih =>
    rw [List.foldl_cons, List.foldl_cons,
      replaceEntry_eq_replaceEntries table (hcount _ List.mem_cons_self)]
    refine ih _ (fun m hm => ?_) hrenaming.tail
    have hne := hrenaming.ne_head hm
    rw [count_replaceEntries_of_ne hne.1 hne.2]
    exact hcount m (List.mem_cons_of_mem _ hm)

theorem count_foldl_replaceEntry_of_ne {pairs : List (M × M)} {m : M}
    (hne : ∀ pair ∈ pairs, m ≠ pair.1 ∧ m ≠ pair.2) (table : List (Option M)) :
    (pairs.foldl (fun table pair => replaceEntry pair.1 pair.2 table) table).count (some m) =
      table.count (some m) := by
  induction pairs generalizing table with
  | nil => rfl
  | cons pair pairs ih =>
    obtain ⟨hold, hnew⟩ := hne pair List.mem_cons_self
    rw [List.foldl_cons, ih fun other hother => hne other (List.mem_cons_of_mem _ hother)]
    exact count_replaceEntry_of_ne hold hnew table

/-- The itable loses one entry of every old method. -/
theorem KlassItable.count_adjustMethodEntries {oldMethods newMethods : List M}
    (h : MatchingMethods oldMethods newMethods) (table : List (Option M)) {m : M}
    (hm : m ∈ oldMethods) :
    (KlassItable.adjustMethodEntries oldMethods newMethods table).count (some m) =
      table.count (some m) - 1 := by
  unfold KlassItable.adjustMethodEntries
  have hfst : (oldMethods.zip newMethods).map Prod.fst = oldMethods :=
    List.map_fst_zip (Nat.le_of_eq h.length_eq)
  rw [← hfst] at hm
  have hrenaming := h.renaming
  generalize oldMethods.zip newMethods = pairs at hm hrenaming
  induction pairs generalizing table with
  | nil => cases hm
  | cons pair pairs ih =>
    rw [List.foldl_cons]
    rcases List.mem_cons.1 hm with rfl | hm
    · have hself : pair.1 ≠ pair.2 := fun heq =>
        hrenaming.disjoint pair List.mem_cons_self (heq ▸ List.mem_cons_self)
      rw [count_foldl_replaceEntry_of_ne, count_replaceEntry_self hself]
      intro other hother
      refine ⟨?_, ?_⟩
      · exact (hrenaming.ne_head (List.mem_map_of_mem hother)).1.symm
      · intro heq
        refine hrenaming.disjoint other (List.mem_cons_of_mem _ hother) ?_
        rw [← heq]
        exact List.mem_cons_self
    · have hne := hrenaming.ne_head hm
      rw [ih _ hm hrenaming.tail, count_replaceEntry_of_ne hne.1 hne.2]

/-- After a redefinition no entry is stale if and only if no old method had several entries in the
itable. -/
theorem adjustMethodEntries_iff {oldMethods newMethods : List M}
    (h : MatchingMethods oldMethods newMethods) (vtable itable : List (Option M)) :
    Adjusted oldMethods newMethods vtable
        (KlassVtable.adjustMethodEntries oldMethods newMethods vtable) ∧
      Adjusted oldMethods newMethods itable
        (KlassItable.adjustMethodEntries oldMethods newMethods itable) ↔
      ∀ m ∈ oldMethods, itable.count (some m) ≤ 1 := by
  constructor
  · rintro ⟨-, hitable⟩ m hm
    have hzero := List.count_eq_zero.2 (hitable.noStale m hm)
    rw [KlassItable.count_adjustMethodEntries h itable hm] at hzero
    omega
  · intro hcount
    refine ⟨KlassVtable.adjusted h vtable, ?_⟩
    rw [KlassItable.adjustMethodEntries_eq h itable hcount]
    exact KlassVtable.adjusted h itable

end Adjustment

/-- Two methods have been redefined: an itable with one entry for each of them, and one of two
interfaces that both declare the first. -/
theorem adjustMethodEntries_iff_twoMethods :
    (Adjusted [1, 2] [3, 4] [some 2, some 1, some 2]
        (KlassVtable.adjustMethodEntries [1, 2] [3, 4] [some 2, some 1, some 2]) ∧
      Adjusted [1, 2] [3, 4] [some 2, none, some 5, some 1]
        (KlassItable.adjustMethodEntries [1, 2] [3, 4] [some 2, none, some 5, some 1])) ∧
    ¬ (Adjusted [1, 2] [3, 4] [some 2, some 1]
        (KlassVtable.adjustMethodEntries [1, 2] [3, 4] [some 2, some 1]) ∧
      Adjusted [1, 2] [3, 4] [some 1, some 2, some 1]
        (KlassItable.adjustMethodEntries [1, 2] [3, 4] [some 1, some 2, some 1])) := by
  have hmatching : MatchingMethods [1, 2] [3, 4] := ⟨rfl, by decide, by decide, by decide⟩
  rw [adjustMethodEntries_iff hmatching, adjustMethodEntries_iff hmatching]
  decide

/-- The entry that the search of the itable does not reach is stale. -/
theorem not_adjusted_twice :
    ¬ ∀ (oldMethods newMethods : List Nat) (vtable itable : List (Option Nat)),
      MatchingMethods oldMethods newMethods →
      Adjusted oldMethods newMethods vtable
          (KlassVtable.adjustMethodEntries oldMethods newMethods vtable) ∧
        Adjusted oldMethods newMethods itable
          (KlassItable.adjustMethodEntries oldMethods newMethods itable) := by
  intro hall
  have hmatching : MatchingMethods [1] [2] :=
    ⟨rfl, List.nodup_singleton 1, List.nodup_singleton 2, by decide⟩
  have hitable := (hall [1] [2] [] [some 1, some 1] hmatching).2
  exact hitable.noStale 1 (by decide) (by decide)

end HotSpot
