import HotSpot.Lib.Runs
import HotSpot.Oops.KlassVtable

/-! # Linking vtables

What `initialize_vtable` writes: which entries of the superclass a method takes over, which
methods get an entry of their own, and what holds of the vtables of all linked classes.
-/

namespace HotSpot

open ClassFileParser Method

namespace LoadedClasses

variable {K : Type} (h : LoadedClasses K) {check : LoaderCheck} {st : LinkState K}
  {k : K}

/-- The method goes through the vtable of the superclass. -/
def Searches (k : K) (t : Method K) : Prop :=
  t.IsVirtual ∧ t.access ≠ .private_ ∧ h.super k ≠ none

/-- The method `t` of the class `k` takes over the entry `i` of the superclass. -/
def Takes (st : LinkState K) (k : K) (t : Method K) (i : Nat) : Prop :=
  h.Searches k t ∧ ∃ m superKlass, (h.superTable st k)[i]? = some (some m) ∧ m.Matches t ∧
    h.overriddenThrough st k i m = some (some superKlass)

/-- The method `t` of the class `k` gets an entry of its own. -/
def IsNewEntry (st : LinkState K) (k : K) (t : Method K) : Prop :=
  t.IsVirtual ∧ h.isFinal k = false ∧ t.isFinal = false ∧ ∀ i, ¬ h.Takes st k t i

/-- The loop of `update_inherited_vtable` after `n` rounds. -/
structure Updated (st : LinkState K) (k : K) (t : Method K) (table : List (Option (Method K)))
    (allocateNew : Bool) (n : Nat) (u : UpdateState K) : Prop where
  length : u.table.length = table.length
  taken : ∀ i < n, h.Takes st k t i → u.table[i]? = some (some t)
  kept : ∀ i, (i < n → ¬ h.Takes st k t i) → u.table[i]? = table[i]?
  allocateNew : u.allocateNew = true ↔ allocateNew = true ∧ ∀ i < n, ¬ h.Takes st k t i
  index_none : u.vtableIndex = none → ∀ i < n, ¬ h.Takes st k t i
  index_some : ∀ i, u.vtableIndex = some i → i < n ∧ h.Takes st k t i

/-- In the entries that match `t` the table agrees with that of the superclass. -/
def Agrees (st : LinkState K) (k : K) (t : Method K) (table : List (Option (Method K))) : Prop :=
  ∀ i < (h.superTable st k).length, ∀ m : Method K, m.Matches t →
    (table[i]? = some (some m) ↔ (h.superTable st k)[i]? = some (some m))

variable {h}

/-- A round that leaves the entry alone. -/
theorem Updated.skip {t : Method K} {table : List (Option (Method K))}
    {allocateNew : Bool} {n : Nat}
    {u : UpdateState K} (hu : h.Updated st k t table allocateNew n u)
    (hnot : ¬ h.Takes st k t n) : h.Updated st k t table allocateNew (n + 1) u := by
  have hiff : ∀ i, i < n + 1 ∧ h.Takes st k t i ↔ i < n ∧ h.Takes st k t i := by
    intro i
    constructor
    · rintro ⟨hi, htakes⟩
      refine ⟨?_, htakes⟩
      rcases Nat.lt_or_eq_of_le (Nat.le_of_lt_succ hi) with hlt | rfl
      · exact hlt
      · exact absurd htakes hnot
    · rintro ⟨hi, htakes⟩
      exact ⟨by omega, htakes⟩
  refine ⟨hu.length, ?_, ?_, ?_, ?_, ?_⟩
  · exact fun i hi htakes => hu.taken i ((hiff i).1 ⟨hi, htakes⟩).1 htakes
  · exact fun i hi => hu.kept i fun hlt => hi (by omega)
  · rw [hu.allocateNew]
    exact and_congr_right fun _ =>
      ⟨fun hall i hi htakes => hall i ((hiff i).1 ⟨hi, htakes⟩).1 htakes,
      fun hall i hi => hall i (by omega)⟩
  · exact fun hnone i hi htakes => hu.index_none hnone i ((hiff i).1 ⟨hi, htakes⟩).1 htakes
  · exact fun i hi => ⟨Nat.lt_succ_of_lt (hu.index_some i hi).1, (hu.index_some i hi).2⟩

/-- A round that takes the entry. -/
theorem Updated.take {t : Method K} {table : List (Option (Method K))}
    {allocateNew : Bool} {n : Nat}
    {u : UpdateState K} (hu : h.Updated st k t table allocateNew n u) (hn : n < table.length)
    (htakes : h.Takes st k t n) :
    h.Updated st k t table allocateNew (n + 1) ⟨u.table.set n (some t), false, some n⟩ := by
  refine ⟨by rw [List.length_set, hu.length], ?_, ?_, ?_, ?_, ?_⟩
  · intro i hi htake
    rcases Nat.lt_or_eq_of_le (Nat.le_of_lt_succ hi) with hlt | rfl
    · rw [List.getElem?_set_ne (by omega)]
      exact hu.taken i hlt htake
    · exact List.getElem?_set_self (by rwa [hu.length])
  · intro i hi
    have hne : n ≠ i := by
      rintro rfl
      exact hi (Nat.lt_succ_self _) htakes
    rw [List.getElem?_set_ne hne]
    exact hu.kept i fun hlt => hi (by omega)
  · simp only [Bool.false_eq_true, false_iff, not_and]
    exact fun _ hall => hall n (Nat.lt_succ_self n) htakes
  · exact fun hnone => nomatch hnone
  · rintro i hi
    cases hi
    exact ⟨Nat.lt_succ_self n, htakes⟩

theorem updated_updateEntry {t : Method K} {table : List (Option (Method K))} {allocateNew : Bool}
    {n : Nat} {u u' : UpdateState K} (hsearch : h.Searches k t) (hagrees : h.Agrees st k t table)
    (hn : n < (h.superTable st k).length) (hlen : (h.superTable st k).length ≤ table.length)
    (hu : h.Updated st k t table allocateNew n u)
    (hstep : h.updateEntry check st k t u n = some u') :
    h.Updated st k t table allocateNew (n + 1) u' := by
  have hget : u.table[n]? = table[n]? := hu.kept n fun hlt => absurd hlt (Nat.lt_irrefl n)
  have htable : n < u.table.length := by
    rw [hu.length]
    omega
  rw [updateEntry, List.getD_eq_getElem?_getD] at hstep
  split at hstep
  · cases hstep
  next m hm =>
  have hentry : table[n]? = some (some m) := by
    rw [← hget, List.getElem?_eq_getElem htable]
    rw [List.getElem?_eq_getElem htable] at hm
    exact congrArg some hm
  split at hstep
  · next hmatch =>
      have hsuper := (hagrees n hn m hmatch).1 hentry
      split at hstep
      · cases hstep
      · next hthrough =>
          cases hstep
          refine hu.skip ?_
          rintro ⟨-, m', superKlass, hm', -, hthrough'⟩
          rw [hsuper] at hm'
          cases hm'
          rw [hthrough] at hthrough'
          cases hthrough'
      · next superKlass hthrough =>
          split at hstep
          · cases hstep
          · cases hstep
            exact hu.take (by omega) ⟨hsearch, m, superKlass, hsuper, hmatch, hthrough⟩
  · next hmatch =>
      cases hstep
      refine hu.skip ?_
      rintro ⟨-, m', superKlass, hm', hmatch', -⟩
      have hentry' := (hagrees n hn m' hmatch').2 hm'
      rw [hentry] at hentry'
      cases hentry'
      exact hmatch hmatch'

theorem updated_foldlM {t : Method K} {table : List (Option (Method K))} {allocateNew : Bool}
    (hsearch : h.Searches k t) (hagrees : h.Agrees st k t table)
    (hlen : (h.superTable st k).length ≤ table.length) {n : Nat}
    (hn : n ≤ (h.superTable st k).length) {u : UpdateState K}
    (hrun : (List.range n).foldlM (h.updateEntry check st k t) ⟨table, allocateNew, none⟩ =
      some u) :
    h.Updated st k t table allocateNew n u := by
  induction n generalizing u with
  | zero =>
    cases hrun
    exact ⟨rfl, by simp, fun _ _ => rfl, by simp, by simp, by simp⟩
  | succ n ih =>
    rw [List.range_succ, List.foldlM_append] at hrun
    obtain ⟨u1, hu1, hstep⟩ := Option.bind_eq_some_iff.1 hrun
    have hstep' : h.updateEntry check st k t u1 n = some u := by simpa using hstep
    exact updated_updateEntry hsearch hagrees (by omega) hlen (ih (by omega) hu1) hstep'

/-- `update_inherited_vtable` -/
theorem updated_updateInheritedVtable {t : Method K} {table : List (Option (Method K))}
    (hagrees : h.Agrees st k t table) (hlen : (h.superTable st k).length ≤ table.length)
    {u : UpdateState K}
    (hrun : h.updateInheritedVtable check st k (h.superTable st k).length table t = some u) :
    u.table.length = table.length ∧
      (∀ i, h.Takes st k t i → u.table[i]? = some (some t)) ∧
      (∀ i, ¬ h.Takes st k t i → u.table[i]? = table[i]?) ∧
      (u.allocateNew = true ↔ h.IsNewEntry st k t) ∧
      (u.vtableIndex = none → ∀ i, ¬ h.Takes st k t i) ∧
      (∀ i, u.vtableIndex = some i → h.Takes st k t i) := by
  have hunsearched (b : Bool) (hnot : ¬ h.Searches k t) (hu : u = ⟨table, b, none⟩)
      (hb : b = true ↔ t.IsVirtual ∧ h.isFinal k = false ∧ t.isFinal = false) :
      u.table.length = table.length ∧ (∀ i, h.Takes st k t i → u.table[i]? = some (some t)) ∧
        (∀ i, ¬ h.Takes st k t i → u.table[i]? = table[i]?) ∧
        (u.allocateNew = true ↔ h.IsNewEntry st k t) ∧
        (u.vtableIndex = none → ∀ i, ¬ h.Takes st k t i) ∧
        (∀ i, u.vtableIndex = some i → h.Takes st k t i) := by
    subst hu
    have hnone : ∀ i, ¬ h.Takes st k t i := fun i htakes => hnot htakes.1
    refine ⟨rfl, fun i htakes => absurd htakes (hnone i), fun _ _ => rfl, ?_, fun _ => hnone,
      by simp⟩
    rw [hb]
    exact ⟨fun ⟨h1, h2, h3⟩ => ⟨h1, h2, h3, hnone⟩, fun ⟨h1, h2, h3, _⟩ => ⟨h1, h2, h3⟩⟩
  rw [updateInheritedVtable] at hrun
  split at hrun
  · next hstatic =>
      have hvirtual : ¬ t.IsVirtual := by
        rintro ⟨h1, h2⟩
        rcases hstatic with hstatic | hstatic
        · rw [h1] at hstatic
          cases hstatic
        · exact h2 hstatic
      refine hunsearched false (fun hs => hvirtual hs.1) (Option.some.inj hrun).symm ?_
      simp [hvirtual]
  next hvirtual =>
  have hvirtual : t.IsVirtual := by simpa [IsVirtual, not_or] using hvirtual
  have hb : (!(h.isFinal k || t.isFinal)) = true ↔
      t.IsVirtual ∧ h.isFinal k = false ∧ t.isFinal = false := by simp [hvirtual]
  simp only at hrun
  split at hrun
  · next hnone => exact hunsearched _ (fun hs => hs.2.2 hnone) (Option.some.inj hrun).symm hb
  next s hs =>
  split at hrun
  · next hprivate => exact hunsearched _ (fun hs => hs.2.1 hprivate) (Option.some.inj hrun).symm hb
  next hprivate =>
  have hsearch : h.Searches k t := ⟨hvirtual, hprivate, by rw [hs]; exact Option.some_ne_none s⟩
  have hu := updated_foldlM hsearch hagrees hlen (Nat.le_refl _) hrun
  have hlt : ∀ i, h.Takes st k t i → i < (h.superTable st k).length := by
    rintro i ⟨-, m, superKlass, hm, -⟩
    exact (List.getElem?_eq_some_iff.1 hm).1
  refine ⟨hu.length, fun i htakes => hu.taken i (hlt i htakes) htakes,
    fun i hnot => hu.kept i fun _ => hnot, ?_, fun hnone i htakes =>
      hu.index_none hnone i (hlt i htakes) htakes, fun i hi => (hu.index_some i hi).2⟩
  rw [hu.allocateNew, hb]
  constructor
  · rintro ⟨⟨h1, h2, h3⟩, hall⟩
    exact ⟨h1, h2, h3, fun i htakes => hall i (hlt i htakes) htakes⟩
  · rintro ⟨h1, h2, h3, hall⟩
    exact ⟨⟨h1, h2, h3⟩, fun i _ => hall i⟩

/-! ## The methods of a class -/

open Classical in
/-- The vtable of `k` after the methods `done`. -/
structure Filled (h : LoadedClasses K) (st : LinkState K) (k : K) (done : List (Method K))
    (v : KlassVtable K) : Prop where
  length : v.table.length = (h.superTable st k).length + done.countP (h.IsNewEntry st k ·)
  taken : ∀ t ∈ done, ∀ i, h.Takes st k t i → v.table[i]? = some (some t)
  kept : ∀ i < (h.superTable st k).length, (∀ t ∈ done, ¬ h.Takes st k t i) →
    v.table[i]? = (h.superTable st k)[i]?
  /-- An entry behind those of the superclass is the entry of one method. -/
  new : ∀ i, (h.superTable st k).length ≤ i → i < v.table.length → ∃ t ∈ done,
    h.IsNewEntry st k t ∧ v.table[i]? = some (some t) ∧ v.vtableIndex t = some i
  index_none : ∀ t ∈ done, v.vtableIndex t = none →
    ¬ h.IsNewEntry st k t ∧ ∀ i, ¬ h.Takes st k t i
  index_some : ∀ t ∈ done, ∀ i, v.vtableIndex t = some i → v.table[i]? = some (some t)

theorem Filled.le_length {done : List (Method K)} {v : KlassVtable K}
    (hv : h.Filled st k done v) : (h.superTable st k).length ≤ v.table.length := by
  rw [hv.length]
  exact Nat.le_add_right _ _

theorem Filled.agrees {done : List (Method K)} {v : KlassVtable K} {t : Method K}
    (hv : h.Filled st k done v) (hdistinct : ∀ t' ∈ done, ¬ t'.Matches t) :
    h.Agrees st k t v.table := by
  intro i hi m hmatch
  by_cases htaken : ∃ t' ∈ done, h.Takes st k t' i
  · obtain ⟨t', ht', htakes⟩ := htaken
    rw [hv.taken t' ht' i htakes]
    obtain ⟨-, m', superKlass, hm', hmatch', -⟩ := htakes
    rw [hm']
    constructor
    · intro heq
      cases heq
      exact absurd hmatch (hdistinct _ ht')
    · intro heq
      cases heq
      exact absurd (hmatch'.symm.trans hmatch) (hdistinct t' ht')
  · rw [hv.kept i hi fun t' ht' htakes => htaken ⟨t', ht', htakes⟩]

section Initialize

variable [DecidableEq K]

open Classical in
theorem filled_initializeMethod {done : List (Method K)} {v v' : KlassVtable K} {t : Method K}
    (hv : h.Filled st k done v) (hdistinct : ∀ t' ∈ done, ¬ t'.Matches t)
    (hstep : h.initializeMethod check st k (h.superTable st k).length v t = some v') :
    h.Filled st k (done ++ [t]) v' := by
  have hagrees := hv.agrees hdistinct
  have hne : ∀ t' ∈ done, t' ≠ t := by
    rintro t' ht' rfl
    exact hdistinct t' ht' ⟨rfl, rfl⟩
  obtain ⟨u, hu, hv'⟩ := Option.bind_eq_some_iff.1 hstep
  obtain ⟨hlen, htaken, hkept, hnew, hnone, hsome⟩ :=
    updated_updateInheritedVtable hagrees hv.le_length hu
  -- what the methods before have written is not matched
  have hold : ∀ t' ∈ done, ∀ i : Nat,
      v.table[i]? = some (some t') → u.table[i]? = some (some t') := by
    intro t' ht' i hi
    rw [hkept i, hi]
    rintro ⟨-, m, superKlass, hm, hmatch, -⟩
    have hlt := (List.getElem?_eq_some_iff.1 hm).1
    have hentry := (hagrees i hlt m hmatch).2 hm
    rw [hi] at hentry
    cases hentry
    exact hdistinct _ ht' hmatch
  have hfinish (table : List (Option (Method K))) (index : Option Nat)
      (hv' : v' = ⟨table, Function.update v.vtableIndex t index⟩)
      (hsub : ∀ i, i < u.table.length → table[i]? = u.table[i]?)
      (hlength : table.length = u.table.length + if h.IsNewEntry st k t then 1 else 0)
      (hlast : ∀ i, u.table.length ≤ i → i < table.length → h.IsNewEntry st k t ∧
        table[i]? = some (some t) ∧ index = some i)
      (hindexNone : index = none → ¬ h.IsNewEntry st k t ∧ ∀ i, ¬ h.Takes st k t i)
      (hindexSome : ∀ i, index = some i → table[i]? = some (some t)) :
      h.Filled st k (done ++ [t]) v' := by
    have hself : v'.vtableIndex t = index := by
      rw [hv']
      exact Function.update_self _ _ _
    have hother : ∀ t' ∈ done, v'.vtableIndex t' = v.vtableIndex t' := by
      intro t' ht'
      rw [hv']
      exact Function.update_of_ne (hne t' ht') _ _
    obtain rfl : v'.table = table := by rw [hv']
    have hsub' : ∀ (i : Nat) (t' : Method K), u.table[i]? = some (some t') →
        v'.table[i]? = some (some t') := by
      intro i t' hi
      rw [hsub i (List.getElem?_eq_some_iff.1 hi).1, hi]
    have hle' := hv.le_length
    refine ⟨?_, ?_, ?_, ?_, ?_, ?_⟩
    · rw [hlength, hlen, hv.length, List.countP_append, List.countP_singleton, Nat.add_assoc]
      simp only [decide_eq_true_eq]
    · intro t' ht' i htakes
      rcases List.mem_append.1 ht' with ht' | ht'
      · exact hsub' i t' (hold t' ht' i (hv.taken t' ht' i htakes))
      · obtain rfl := List.mem_singleton.1 ht'
        exact hsub' i t' (htaken i htakes)
    · intro i hi hall
      rw [hsub i (by omega), hkept i (hall t (by simp))]
      exact hv.kept i hi fun t' ht' => hall t' (List.mem_append_left _ ht')
    · intro i hi hlt
      by_cases hu : i < u.table.length
      · obtain ⟨t', ht', hnew', hentry, hindex⟩ := hv.new i hi (by omega)
        refine ⟨t', List.mem_append_left _ ht', hnew', hsub' i t' (hold t' ht' i hentry), ?_⟩
        rw [hother t' ht', hindex]
      · obtain ⟨hnew', hentry, hindex⟩ := hlast i (by omega) hlt
        exact ⟨t, by simp, hnew', hentry, by rw [hself, hindex]⟩
    · intro t' ht' hi
      rcases List.mem_append.1 ht' with ht' | ht'
      · rw [hother t' ht'] at hi
        exact hv.index_none t' ht' hi
      · obtain rfl := List.mem_singleton.1 ht'
        rw [hself] at hi
        exact hindexNone hi
    · intro t' ht' i hi
      rcases List.mem_append.1 ht' with ht' | ht'
      · rw [hother t' ht'] at hi
        exact hsub' i t' (hold t' ht' i (hv.index_some t' ht' i hi))
      · obtain rfl := List.mem_singleton.1 ht'
        rw [hself] at hi
        exact hindexSome i hi
  split at hv'
  · next hallocate =>
      refine hfinish _ _ (Option.some.inj hv').symm
        (fun i hi => List.getElem?_append_left hi) ?_ ?_ (fun hnone => nomatch hnone) ?_
      · rw [if_pos (hnew.1 hallocate), List.length_append, List.length_singleton]
      · intro i hge hlt
        obtain rfl : i = u.table.length := by
          rw [List.length_append, List.length_singleton] at hlt
          omega
        exact ⟨hnew.1 hallocate, List.getElem?_concat_length, rfl⟩
      · rintro i hi
        cases hi
        exact List.getElem?_concat_length
  · next hallocate =>
      refine hfinish _ _ (Option.some.inj hv').symm (fun _ _ => rfl)
        (by rw [if_neg fun hnew' => hallocate (hnew.2 hnew')]; rfl)
        (fun i hge hlt => by omega) ?_ fun i hi => htaken i (hsome i hi)
      exact fun hnone' => ⟨fun hnew' => hallocate (hnew.2 hnew'), hnone hnone'⟩

theorem filled_foldlM {methods done : List (Method K)} {v v' : KlassVtable K}
    (hv : h.Filled st k done v)
    (hdistinct : (done ++ methods).Pairwise fun m m' => ¬ m.Matches m')
    (hrun : methods.foldlM (h.initializeMethod check st k (h.superTable st k).length) v = some v') :
    h.Filled st k (done ++ methods) v' := by
  induction methods generalizing done v with
  | nil =>
    cases hrun
    rwa [List.append_nil]
  | cons t methods ih =>
    obtain ⟨v1, hv1, hrun⟩ := Option.bind_eq_some_iff.1 hrun
    have hbefore : ∀ t' ∈ done, ¬ t'.Matches t := fun t' ht' =>
      (List.pairwise_append.1 hdistinct).2.2 t' ht' t List.mem_cons_self
    have happend : done ++ t :: methods = done ++ [t] ++ methods := by simp
    rw [happend] at hdistinct ⊢
    exact ih (filled_initializeMethod hv hbefore hv1) hdistinct hrun

/-- What `initialize_vtable` has written. -/
theorem filled_initializeVtable {v : KlassVtable K} (hv : h.initializeVtable check st k = some v) :
    ∃ w, h.Filled st k (h.methods k) w ∧
      v = ⟨w.table ++ (h.getMirandas k).map some, w.vtableIndex⟩ := by
  obtain ⟨w, hw, hv⟩ := Option.bind_eq_some_iff.1 hv
  refine ⟨w, ?_, (Option.some.inj hv).symm⟩
  have hstart : h.Filled st k [] ⟨h.superTable st k, fun _ => none⟩ :=
    ⟨rfl, by simp, fun _ _ _ => rfl, fun i hge hlt => absurd hlt (by simpa using hge),
      by simp, by simp⟩
  exact filled_foldlM hstart (by simpa using h.methods_distinct k) hw

end Initialize

/-! ## Miranda methods -/

theorem mem_of_mem_addNewMirandasToList {classMethods list interfaceMethods : List (Method K)}
    {super : Option K} {m : Method K}
    (hm : m ∈ h.addNewMirandasToList classMethods super list interfaceMethods) :
    m ∈ list ∨ m ∈ interfaceMethods := by
  induction interfaceMethods generalizing list with
  | nil => exact .inl hm
  | cons im interfaceMethods ih =>
    rcases ih hm with hm | hm
    · have hcases : m ∈ list ∨ m = im := by
        simp only [addNewMiranda] at hm
        split at hm
        · exact .inl hm
        split at hm
        · split at hm
          · exact .inl hm
          · split at hm
            · simpa using hm
            · exact .inl hm
        · exact .inl hm
      rcases hcases with hm | rfl
      · exact .inl hm
      · exact .inr List.mem_cons_self
    · exact .inr (List.mem_cons_of_mem _ hm)

/-- The miranda methods of a class are methods of its interfaces. -/
theorem exists_interface_of_mem_getMirandas {m : Method K} (hm : m ∈ h.getMirandas k) :
    ∃ i ∈ h.transitiveInterfaces k, m ∈ h.methods i := by
  have hinner : ∀ (interfaces : List K) (list : List (Method K)),
      m ∈ interfaces.foldl (fun list j =>
        h.addNewMirandasToList (h.methods k) (h.super k) list (h.methods j)) list →
      m ∈ list ∨ ∃ j ∈ interfaces, m ∈ h.methods j := by
    intro interfaces
    induction interfaces with
    | nil => exact fun list hm => .inl hm
    | cons j interfaces ih =>
      intro list hm
      rcases ih _ hm with hm | ⟨j', hj', hm⟩
      · rcases mem_of_mem_addNewMirandasToList hm with hm | hm
        · exact .inl hm
        · exact .inr ⟨j, List.mem_cons_self, hm⟩
      · exact .inr ⟨j', List.mem_cons_of_mem _ hj', hm⟩
  have houter : ∀ (interfaces : List K) (list : List (Method K)),
      m ∈ interfaces.foldl (fun list i => (h.transitiveInterfaces i).foldl
        (fun list j => h.addNewMirandasToList (h.methods k) (h.super k) list (h.methods j))
        (h.addNewMirandasToList (h.methods k) (h.super k) list (h.methods i))) list →
      m ∈ list ∨ ∃ i ∈ interfaces, m ∈ h.methods i ∨ ∃ j ∈ h.transitiveInterfaces i,
        m ∈ h.methods j := by
    intro interfaces
    induction interfaces with
    | nil => exact fun list hm => .inl hm
    | cons i interfaces ih =>
      intro list hm
      rcases ih _ hm with hm | ⟨i', hi', hm⟩
      · rcases hinner _ _ hm with hm | hm
        · rcases mem_of_mem_addNewMirandasToList hm with hm | hm
          · exact .inl hm
          · exact .inr ⟨i, List.mem_cons_self, .inl hm⟩
        · exact .inr ⟨i, List.mem_cons_self, .inr hm⟩
      · exact .inr ⟨i', List.mem_cons_of_mem _ hi', hm⟩
  rcases houter _ _ hm with hm | ⟨i, hi, hm | ⟨j, hj, hm⟩⟩
  · cases hm
  · exact ⟨i, h.mem_transitiveInterfaces.2 (.inr ⟨i, hi, .inl rfl⟩), hm⟩
  · exact ⟨j, h.mem_transitiveInterfaces.2 (.inr ⟨i, hi, .inr hj⟩), hm⟩

/-! ## All linked classes -/

/-- The vtable of every linked class is what `initialize_vtable` has written, filled up. -/
def Linked (h : LoadedClasses K) (st : LinkState K) : Prop :=
  ∀ k v, st k = some v → (∀ s, h.super k = some s → st s ≠ none) ∧
    ∃ w, h.Filled st k (h.methods k) w ∧
      w.table.length + (h.getMirandas k).length ≤ h.vtableLength k ∧
      v = h.fillUp k ⟨w.table ++ (h.getMirandas k).map some, w.vtableIndex⟩

theorem superTable_of_super {s : K} (hs : h.super k = some s) : h.superTable st k = st.table s := by
  rw [superTable, hs]

namespace Linked

theorem ancestors (hst : h.Linked st) (hk : st k ≠ none) {a : K} (ha : a ∈ h.ancestors k) :
    st a ≠ none := by
  induction k using h.super_induction with
  | hstep k ih =>
    rcases h.mem_ancestors.1 ha with rfl | ha
    · exact hk
    · obtain ⟨v, hv⟩ := Option.ne_none_iff_exists'.1 hk
      unfold supers at ha
      split at ha
      · cases ha
      · next s hs => exact ih s hs ((hst k v hv).1 s hs) ha

theorem length_table (hst : h.Linked st) (hk : st k ≠ none) :
    (st.table k).length = h.vtableLength k := by
  obtain ⟨v, hv⟩ := Option.ne_none_iff_exists'.1 hk
  obtain ⟨-, w, -, hle, rfl⟩ := hst k v hv
  have htable : st.table k = (h.fillUp k ⟨w.table ++ (h.getMirandas k).map some,
      w.vtableIndex⟩).table := by rw [LinkState.table, hv]; rfl
  rw [htable]
  simp only [fillUp, List.length_append, List.length_map, List.length_replicate]
  omega

/-- The table of a linked class, by its parts. -/
theorem table_eq (hst : h.Linked st) (hk : st k ≠ none) : ∃ w, h.Filled st k (h.methods k) w ∧
    w.table.length + (h.getMirandas k).length ≤ h.vtableLength k ∧
    (∀ v, st k = some v → v.vtableIndex = w.vtableIndex) ∧
    st.table k = w.table ++ (h.getMirandas k).map some ++
      List.replicate (h.vtableLength k - (w.table.length + (h.getMirandas k).length)) none := by
  obtain ⟨v, hv⟩ := Option.ne_none_iff_exists'.1 hk
  obtain ⟨-, w, hw, hle, rfl⟩ := hst k v hv
  refine ⟨w, hw, hle, ?_, ?_⟩
  · intro v hv'
    rw [hv] at hv'
    cases hv'
    rfl
  · rw [LinkState.table, hv]
    simp [fillUp]

/-- Where the entry of a linked class comes from. -/
theorem entry_cases (hst : h.Linked st) (hk : st k ≠ none) {i : Nat} {m : Method K}
    (hm : (st.table k)[i]? = some (some m)) :
    (h.superTable st k)[i]? = some (some m) ∨ m ∈ h.methods k ∧ h.Takes st k m i ∨
      m ∈ h.methods k ∧ h.IsNewEntry st k m ∨ m ∈ h.getMirandas k := by
  obtain ⟨w, hw, -, -, htable⟩ := hst.table_eq hk
  rw [htable, List.append_assoc] at hm
  by_cases hi : i < w.table.length
  · rw [List.getElem?_append_left hi] at hm
    by_cases hsuper : i < (h.superTable st k).length
    · by_cases htaken : ∃ t ∈ h.methods k, h.Takes st k t i
      · obtain ⟨t, ht, htakes⟩ := htaken
        rw [hw.taken t ht i htakes] at hm
        cases hm
        exact .inr (.inl ⟨ht, htakes⟩)
      · rw [hw.kept i hsuper fun t ht htakes => htaken ⟨t, ht, htakes⟩] at hm
        exact .inl hm
    · obtain ⟨t, ht, hnew, hentry, -⟩ := hw.new i (by omega) hi
      rw [hentry] at hm
      cases hm
      exact .inr (.inr (.inl ⟨ht, hnew⟩))
  · rw [List.getElem?_append_right (by omega)] at hm
    have hmem := List.mem_of_getElem? hm
    rcases List.mem_append.1 hmem with hmem | hmem
    · exact .inr (.inr (.inr (by simpa using hmem)))
    · exact absurd (List.eq_of_mem_replicate hmem) (Option.some_ne_none m)

/-- An entry is a virtual method of a superclass or a miranda method. -/
theorem entry_origin (hst : h.Linked st) (hk : st k ≠ none) {i : Nat} {m : Method K}
    (hm : (st.table k)[i]? = some (some m)) :
    (∃ a ∈ h.ancestors k, m ∈ h.methods a ∧ m.IsVirtual) ∨
      ∃ a ∈ h.ancestors k, m ∈ h.getMirandas a := by
  induction k using h.super_induction with
  | hstep k ih =>
    rcases hst.entry_cases hk hm with hm | ⟨hmem, htakes⟩ | ⟨hmem, hnew⟩ | hmem
    · unfold superTable at hm
      split at hm
      · cases hm
      · next s hs =>
          have hlinked : st s ≠ none := hst.ancestors hk (by
            rw [h.ancestors_eq, h.supers_of_super hs]
            exact List.mem_cons_of_mem _ (h.mem_ancestors_self s))
          have hsub : ∀ a ∈ h.ancestors s, a ∈ h.ancestors k := by
            intro a ha
            rw [h.mem_ancestors, h.supers_of_super hs]
            exact .inr ha
          rcases ih s hs hlinked hm with ⟨a, ha, hm⟩ | ⟨a, ha, hm⟩
          · exact .inl ⟨a, hsub a ha, hm⟩
          · exact .inr ⟨a, hsub a ha, hm⟩
    · exact .inl ⟨k, h.mem_ancestors_self k, hmem, htakes.1.1⟩
    · exact .inl ⟨k, h.mem_ancestors_self k, hmem, hnew.1⟩
    · exact .inr ⟨k, h.mem_ancestors_self k, hmem⟩

/-- The superclasses of the class that declares an entry are linked. -/
theorem supers_holder (hst : h.Linked st) (hk : st k ≠ none) {i : Nat} {m : Method K}
    (hm : (st.table k)[i]? = some (some m)) {a : K} (ha : a ∈ h.supers m.holder) : st a ≠ none := by
  rcases hst.entry_origin hk hm with ⟨b, hb, hmem, -⟩ | ⟨b, hb, hmem⟩
  · rw [h.holder_eq hmem] at ha
    exact hst.ancestors hk (h.mem_ancestors.2 (.inr (h.mem_supers_trans ha hb)))
  · obtain ⟨i, hi, hmem⟩ := exists_interface_of_mem_getMirandas hmem
    rw [h.holder_eq hmem, h.supers_of_super (h.interface_super hi), h.ancestors_eq,
      h.supers_object, List.mem_singleton] at ha
    rw [ha]
    exact hst.ancestors hk (h.object_mem_ancestors k)

/-- An entry stays in use in the subclasses, for methods that match. -/
theorem exists_entry_of_super (hst : h.Linked st) (hk : st k ≠ none) {s : K}
    (hs : h.super k = some s)
    {i : Nat} {e : Method K} (he : (st.table s)[i]? = some (some e)) :
    ∃ m, (st.table k)[i]? = some (some m) ∧ m.Matches e := by
  obtain ⟨w, hw, -, -, htable⟩ := hst.table_eq hk
  rw [← superTable_of_super hs] at he
  have hlt := (List.getElem?_eq_some_iff.1 he).1
  rw [htable, List.append_assoc, List.getElem?_append_left (by have := hw.le_length; omega)]
  by_cases htaken : ∃ t ∈ h.methods k, h.Takes st k t i
  · obtain ⟨t, ht, htakes⟩ := htaken
    refine ⟨t, hw.taken t ht i htakes, ?_⟩
    obtain ⟨-, m, superKlass, hm, hmatch, -⟩ := htakes
    rw [he] at hm
    cases hm
    exact hmatch.symm
  · rw [hw.kept i hlt fun t ht htakes => htaken ⟨t, ht, htakes⟩]
    exact ⟨e, he, rfl, rfl⟩

theorem exists_entry_of_mem_ancestors (hst : h.Linked st) (hk : st k ≠ none) {a : K}
    (ha : a ∈ h.ancestors k) {i : Nat} {e : Method K} (he : (st.table a)[i]? = some (some e)) :
    ∃ m, (st.table k)[i]? = some (some m) ∧ m.Matches e := by
  induction k using h.super_induction with
  | hstep k ih =>
    rcases h.mem_ancestors.1 ha with rfl | ha
    · exact ⟨e, he, rfl, rfl⟩
    · cases hs : h.super k with
      | none =>
        rw [supers, hs] at ha
        cases ha
      | some s =>
        rw [h.supers_of_super hs] at ha
        have hlinked : st s ≠ none := hst.ancestors hk (by
          rw [h.ancestors_eq, h.supers_of_super hs]
          exact List.mem_cons_of_mem _ (h.mem_ancestors_self s))
        obtain ⟨m, hm, hmatch⟩ := ih s hs hlinked ha
        obtain ⟨m', hm', hmatch'⟩ := hst.exists_entry_of_super hk hs hm
        exact ⟨m', hm', hmatch'.trans hmatch⟩

/-- The entries of the root can be overridden everywhere. -/
theorem isOverride_object (hst : h.Linked st) (hobject : st h.object ≠ none) {i : Nat}
    {e : Method K}
    (he : (st.table h.object)[i]? = some (some e)) (a k : K) : h.isOverride a e k = true := by
  have hmem : e ∈ h.methods h.object ∧ e.IsVirtual := by
    have hself : h.ancestors h.object = [h.object] := by rw [h.ancestors_eq, h.supers_object]
    rcases hst.entry_origin hobject he with ⟨b, hb, hmem⟩ | ⟨b, hb, hmem⟩
    · rw [hself, List.mem_singleton] at hb
      rwa [hb] at hmem
    · rw [hself, List.mem_singleton] at hb
      rw [hb, getMirandas, h.object_interfaces] at hmem
      cases hmem
  unfold isOverride
  rcases h.object_access hmem.1 hmem.2.1 with haccess | haccess <;> rw [haccess]

/-- `find_transitive_override` finds the first superclass whose entry can be overridden. -/
theorem findTransitiveOverride_iff (hst : h.Linked st) {superk : K} (hobject : superk ≠ h.object)
    (hlinked : ∀ a ∈ h.supers superk, st a ≠ none) {i : Nat} :
    (∃ a, h.findTransitiveOverride st k i superk (h.supers superk) = some (some a)) ↔
      ∃ s ∈ h.supers superk, ∃ e, (st.table s)[i]? = some (some e) ∧ h.isOverride s e k = true := by
  induction superk using h.super_induction with
  | hstep superk ih =>
    obtain ⟨s, hs⟩ := Option.ne_none_iff_exists'.1 fun hnone =>
      hobject (h.super_eq_none.1 hnone)
    have hsupers : h.supers superk = s :: h.supers s := by
      rw [h.supers_of_super hs, h.ancestors_eq]
    have hlinkedS : st s ≠ none := hlinked s (by rw [hsupers]; exact List.mem_cons_self)
    have habove : ∀ a ∈ h.supers s, st a ≠ none :=
      fun a ha => hlinked a (by rw [hsupers]; exact List.mem_cons_of_mem _ ha)
    rw [hsupers, findTransitiveOverride]
    simp only [List.mem_cons, exists_eq_or_imp]
    -- above `s` there is an entry only if there is one in `s`
    have hentry : ∀ a ∈ h.supers s, ∀ e, (st.table a)[i]? = some (some e) →
        ∃ m, (st.table s)[i]? = some (some m) := by
      intro a ha e he
      obtain ⟨m, hm, -⟩ :=
        hst.exists_entry_of_mem_ancestors hlinkedS (h.mem_ancestors.2 (.inr ha)) he
      exact ⟨m, hm⟩
    have hnothing (hno : ∀ m, (st.table s)[i]? ≠ some (some m)) :
        ¬ ((∃ e, (st.table s)[i]? = some (some e) ∧ h.isOverride s e k = true) ∨
          ∃ a ∈ h.supers s, ∃ e, (st.table a)[i]? = some (some e) ∧ h.isOverride a e k = true) := by
      rintro (⟨e, he, -⟩ | ⟨a, ha, e, he, -⟩)
      · exact hno e he
      · obtain ⟨m, hm⟩ := hentry a ha e he
        exact hno m hm
    cases hget : (st.table s)[i]? with
    | none =>
      rw [hget] at hnothing
      simpa using hnothing (by simp)
    | some o =>
      cases o with
      | none =>
        rw [hget] at hnothing
        simpa using hnothing (by simp)
      | some e =>
        simp only [Option.some.injEq, exists_eq_left']
        split
        · next hover => simp [hover]
        · next hover =>
            have hne : s ≠ h.object := by
              rintro rfl
              exact hover (hst.isOverride_object hlinkedS hget _ _)
            rw [ih s hs hne habove]
            simp [hover]

/-- When a method takes over an entry of the superclass. -/
theorem takes_iff (hst : h.Linked st) (hsuper : ∀ s, h.super k = some s → st s ≠ none)
    {t : Method K}
    {i : Nat} : h.Takes st k t i ↔ h.Searches k t ∧ ∃ m, (h.superTable st k)[i]? = some (some m) ∧
      m.Matches t ∧ (h.isOverride m.holder m k = true ∨
        vtableTransitiveOverrideVersion ≤ h.majorVersion k ∧ ∃ s ∈ h.supers m.holder, ∃ e,
          (st.table s)[i]? = some (some e) ∧ h.isOverride s e k = true) := by
  refine and_congr_right fun hsearch => ?_
  obtain ⟨s, hs⟩ := Option.ne_none_iff_exists'.1 hsearch.2.2
  have hlinked := hsuper s hs
  have hthrough : ∀ m, (h.superTable st k)[i]? = some (some m) →
      ((∃ superKlass, h.overriddenThrough st k i m = some (some superKlass)) ↔
        (h.isOverride m.holder m k = true ∨
          vtableTransitiveOverrideVersion ≤ h.majorVersion k ∧ ∃ s ∈ h.supers m.holder, ∃ e,
            (st.table s)[i]? = some (some e) ∧ h.isOverride s e k = true)) := by
    intro m hm
    rw [superTable_of_super hs] at hm
    unfold overriddenThrough
    split
    · next hover => simp [hover]
    next hover =>
    split
    · next hversion =>
        have hholder : m.holder ≠ h.object := by
          intro hobject
          rcases hst.entry_origin hlinked hm with ⟨a, ha, hmem, hvirtual⟩ | ⟨a, ha, hmem⟩
          · rw [h.holder_eq hmem] at hobject
            rw [hobject] at hmem
            rcases h.object_access hmem hvirtual.1 with haccess | haccess <;>
              exact hover (by rw [isOverride, haccess])
          · obtain ⟨j, hj, hmem⟩ := exists_interface_of_mem_getMirandas hmem
            have hsuperj := h.interface_super hj
            rw [← h.holder_eq hmem, hobject, h.super_eq_none.2 rfl] at hsuperj
            cases hsuperj
        rw [hst.findTransitiveOverride_iff hholder fun a ha => hst.supers_holder hlinked hm ha]
        simp [hover, hversion]
    · next hversion => simp [hover, hversion]
  constructor
  · rintro ⟨m, superKlass, hm, hmatch, hover⟩
    exact ⟨m, hm, hmatch, (hthrough m hm).1 ⟨superKlass, hover⟩⟩
  · rintro ⟨m, hm, hmatch, hover⟩
    obtain ⟨superKlass, hover⟩ := (hthrough m hm).2 hover
    exact ⟨m, superKlass, hm, hmatch, hover⟩

end Linked

/-! ## Linking one more class -/

/-- The two states agree on all that is read to link `k`. -/
def SameBelow (h : LoadedClasses K) (st st' : LinkState K) (k : K) : Prop :=
  h.superTable st k = h.superTable st' k ∧ ∀ (i : Nat) (m : Method K),
    (h.superTable st k)[i]? = some (some m) → ∀ a ∈ h.supers m.holder, st.table a = st'.table a

theorem findTransitiveOverride_congr {st st' : LinkState K} {i : Nat} {superclasses : List K}
    (hsame : ∀ a ∈ superclasses, st.table a = st'.table a) (superk : K) :
    h.findTransitiveOverride st k i superk superclasses =
      h.findTransitiveOverride st' k i superk superclasses := by
  induction superclasses generalizing superk with
  | nil => rfl
  | cons a superclasses ih =>
    have hhead := hsame a List.mem_cons_self
    have htail := ih (fun b hb => hsame b (List.mem_cons_of_mem _ hb)) a
    simp only [findTransitiveOverride, htail, hhead]

namespace SameBelow

variable {st' : LinkState K}

theorem takes_iff (hsame : h.SameBelow st st' k) {t : Method K} {i : Nat} :
    h.Takes st k t i ↔ h.Takes st' k t i := by
  obtain ⟨htable, hholder⟩ := hsame
  have hthrough : ∀ m, (h.superTable st k)[i]? = some (some m) →
      h.overriddenThrough st k i m = h.overriddenThrough st' k i m := by
    intro m hm
    unfold overriddenThrough
    rw [findTransitiveOverride_congr (hholder i m hm)]
  unfold Takes
  rw [← htable]
  constructor
  · rintro ⟨hsearch, m, superKlass, hm, hmatch, hover⟩
    exact ⟨hsearch, m, superKlass, hm, hmatch, by rw [← hthrough m hm, hover]⟩
  · rintro ⟨hsearch, m, superKlass, hm, hmatch, hover⟩
    exact ⟨hsearch, m, superKlass, hm, hmatch, by rw [hthrough m hm, hover]⟩

theorem filled (hsame : h.SameBelow st st' k) {done : List (Method K)} {w : KlassVtable K}
    (hw : h.Filled st k done w) : h.Filled st' k done w := by
  have htakes : h.Takes st k = h.Takes st' k := by
    funext t i
    exact propext hsame.takes_iff
  have hnew : h.IsNewEntry st k = h.IsNewEntry st' k := by
    funext t
    unfold IsNewEntry
    rw [htakes]
  constructor
  · rw [← hsame.1, ← hnew]
    exact hw.length
  · rw [← htakes]
    exact hw.taken
  · rw [← hsame.1, ← htakes]
    exact hw.kept
  · rw [← hsame.1, ← hnew]
    exact hw.new
  · rw [← hnew, ← htakes]
    exact hw.index_none
  · exact hw.index_some

end SameBelow

variable [DecidableEq K]

theorem Linked.sameBelow_update (hst : h.Linked st) {k k' : K} {v : KlassVtable K}
    (hnew : st k = none) (hsuper : ∀ s, h.super k' = some s → st s ≠ none) :
    h.SameBelow st (Function.update st k (some v)) k' := by
  have htable : ∀ a, st a ≠ none →
      st.table a = LinkState.table (Function.update st k (some v)) a := by
    intro a ha
    have hne : a ≠ k := by
      rintro rfl
      exact ha hnew
    unfold LinkState.table
    rw [Function.update_of_ne hne]
  cases hs : h.super k' with
  | none =>
    refine ⟨by rw [superTable, superTable, hs], ?_⟩
    intro i m hm
    rw [superTable, hs] at hm
    cases hm
  | some s =>
    have hlinked := hsuper s hs
    refine ⟨by rw [superTable_of_super hs, superTable_of_super hs, htable s hlinked], ?_⟩
    intro i m hm a ha
    rw [superTable_of_super hs] at hm
    exact htable a (hst.supers_holder hlinked hm ha)

theorem Linked.link {st' : LinkState K} (hst : h.Linked st) (hlink : h.Link check st st') :
    h.Linked st' := by
  obtain ⟨hnew, hsuper, hv, hfits⟩ := hlink
  rename_i k v
  obtain ⟨w, hw, rfl⟩ := filled_initializeVtable hv
  intro k' v' hv'
  have hlinked : ∀ a, st a ≠ none →
      Function.update st k (some (h.fillUp k ⟨w.table ++ (h.getMirandas k).map some,
        w.vtableIndex⟩)) a ≠ none := by
    intro a ha
    rw [Function.update_apply]
    split
    · exact Option.some_ne_none _
    · exact ha
  by_cases hk : k' = k
  · subst hk
    rw [Function.update_self] at hv'
    cases hv'
    refine ⟨fun s hs => hlinked s (hsuper s hs), w, ?_, ?_, rfl⟩
    · exact (hst.sameBelow_update hnew hsuper).filled hw
    · simpa using hfits
  · rw [Function.update_of_ne hk] at hv'
    obtain ⟨hsuper', w', hw', hle, rfl⟩ := hst k' v' hv'
    exact ⟨fun s hs => hlinked s (hsuper' s hs), w', (hst.sameBelow_update hnew hsuper').filled hw',
      hle, rfl⟩

/-- The states in which some classes have been linked. -/
def linking (h : LoadedClasses K) (check : LoaderCheck) : TransitionSystem (LinkState K) where
  init st := ∀ k, st k = none
  step := h.Link check

omit [DecidableEq K] in
theorem superLinked_iff : h.superLinked st k = true ↔ ∀ s, h.super k = some s → st s ≠ none := by
  unfold superLinked
  cases h.super k with
  | none => simp
  | some s => simp [Option.isSome_iff_ne_none]

theorem link_of_link_eq_some {st' : LinkState K} (hlink : h.link check st k = some st') :
    h.Link check st st' := by
  unfold link at hlink
  split at hlink
  · next hready =>
      split at hlink
      · cases hlink
      · next v hv =>
          split at hlink
          · next hfits =>
              cases hlink
              exact .mk (Option.isNone_iff_eq_none.1 hready.1) (superLinked_iff.1 hready.2) hv hfits
          · cases hlink
  · cases hlink

/-- Classes that can be linked one after the other. -/
theorem reachable_of_foldlM {ks : List K} (hst : (h.linking check).Reachable st)
    {st' : LinkState K} (hrun : ks.foldlM (h.link check) st = some st') :
    (h.linking check).Reachable st' := by
  induction ks generalizing st with
  | nil =>
    cases hrun
    exact hst
  | cons k ks ih =>
    obtain ⟨st1, hst1, hrun⟩ := Option.bind_eq_some_iff.1 hrun
    exact ih (hst.step (link_of_link_eq_some hst1)) hrun

theorem linked_of_reachable (hst : (h.linking check).Reachable st) : h.Linked st := by
  refine TransitionSystem.Reachable.invariant ?_ (fun _ _ hst hlink => hst.link hlink) hst
  intro st hinit k v hv
  rw [hinit k] at hv
  cases hv

end LoadedClasses

end HotSpot
