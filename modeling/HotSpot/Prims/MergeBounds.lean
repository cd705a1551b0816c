import HotSpot.Prims.MergeAppend

/-! # The bounds of a merge

What holds between the turns of a merge, from which its length, what it records and what it packs
are known beforehand: whether it stays within what is allocated and within two bytes depends on
the references to resolved classes and on how much comes before the last entry that is recorded.
-/

namespace HotSpot.PoolMerge

open Finset

/-- What the merge has recorded and packed has two bytes, and so has an index of every constant
that it has added. -/
structure Low (base scratch : Entries) (m : Merge) : Prop where
  values : ∀ value ∈ m.map.values, value < 2 ^ 16
  packed : ∀ i ∈ m.packed, i < 2 ^ 16
  again : ∀ k p, base.length ≤ p → alike depth (scratch.map revert) k m.entries p = true →
    ∃ q < 2 ^ 16, alike depth (scratch.map revert) k m.entries q = true

/-- Before the turn of `t`. -/
structure Kept (base scratch : Entries) (capacity t : Nat) (m : Merge) : Prop where
  books : ∃ added, Books base scratch capacity t added (refsBefore scratch t) m
  there : ∀ k, Held scratch m.entries k → There base scratch t k
  free : ∀ k : Nat, t ≤ k → m.map.findNewIndex k ≠ 0 → isUtf8 (entryAt scratch k) = true ∨
    isKlass (entryAt scratch k) = true ∨ isNameAndType (entryAt scratch k) = true
  shared : ∀ k : Nat, t ≤ k → resolved (entryAt scratch k) = true →
    (m.map.findNewIndex k ≠ 0 ↔ MappedBefore base scratch t k)
  placed : ∀ k < t, Placed base scratch k → place base scratch k = k ∨
    m.map.findNewIndex k ≠ 0 ∧ m.map.newIndex k = place base scratch k
  low : (∀ k < t, TwoBytes base scratch k) → Low base scratch m

section Turns

variable {base scratch : Entries} {capacity t t' r i k : Nat} {added : Finset Nat} {m m' : Merge}

/-- What has come with earlier entries is in the merged pool. -/
theorem Books.held_of_there (hp : Pools base scratch)
    (h : Books base scratch capacity t added r m) (hthere : There base scratch t k) :
    Held scratch m.entries k := by
  rcases hthere with ⟨old, hold, halike⟩ | ⟨j, hj, hpassed, x, hx, halike⟩
  · obtain ⟨new, hnew⟩ := h.grown
    exact ⟨old, by rw [hnew, alike_append new hp.closed hold, halike]⟩
  · have hself := selfAlike_of_reached hp.parsed.toBuilt hx halike
    obtain ⟨p, hp'⟩ :=
      (h.held j hj j (self_mem_brought hpassed) hself).reached hp.parsed.toBuilt hx
    exact ⟨p, alike_trans (alike_symm halike) hp'⟩

/-- How much is added before a turn. -/
theorem Books.length_eq (hp : Pools base scratch)
    (h : Books base scratch capacity t added (refsBefore scratch t) m)
    (hthere : ∀ k, Held scratch m.entries k → There base scratch t k) :
    m.entries.length = slotsBefore base scratch t := by
  have hadded : added = (range scratch.length).filter fun k => Counted base scratch k ∧
      (k < t ∨ renewed scratch k = false ∧ There base scratch t k) := by
    ext k
    rw [mem_filter, mem_range]
    constructor
    · intro hk
      have hcounted := h.counted k hk
      exact ⟨hcounted.lt, hcounted, (h.again k hk).imp_right fun hagain =>
        ⟨hagain.1, hthere k hagain.2⟩⟩
    · rintro ⟨-, hcounted, hlt | ⟨hrenewed, hthere'⟩⟩
      · exact h.done k hlt hcounted
      · exact h.found k hrenewed hcounted (h.held_of_there hp hthere')
  rw [h.size, hadded, sum_filter, slotsBefore, Nat.add_assoc]

theorem next_of_paired (ht : t < scratch.length) (hpaired : Paired (scratch.drop t)) :
    entryAt scratch t ≠ .invalid ∧ t < t + width (entryAt scratch t) ∧
      ∀ j, t < j → j < t + width (entryAt scratch t) → entryAt scratch j = .invalid := by
  have hwidth := one_le_width (entryAt scratch t)
  exact ⟨(hpaired.head ht).1, by omega, fun j hj hj' => hpaired.second ht hj hj'⟩

/-- What the turn of `t` leaves as it is, apart from the index of `t` in the map. -/
structure Unchanged (t : Nat) (m m' : Merge) : Prop where
  entries : m'.entries = m.entries
  packed : m'.packed = m.packed
  remaps : ∃ k, Remaps t k m.map m'.map

/-- A turn that adds nothing. -/
theorem Kept.next_unchanged (h : Kept base scratch capacity t m)
    (hgap : ∀ j, t < j → j < t' → entryAt scratch j = .invalid) (hlt : t < t')
    (hbooks : ∃ added, Books base scratch capacity t' added (refsBefore scratch t') m')
    (hsame : Unchanged t m m') (hto : toResolved scratch t = false)
    (hplaced : ¬Placed base scratch t)
    (hvalues : TwoBytes base scratch t → Low base scratch m →
      ∀ value ∈ m'.map.values, value < 2 ^ 16) :
    Kept base scratch capacity t' m' := by
  obtain ⟨n, hremaps⟩ := hsame.remaps
  have honly : ∀ k : Nat, t' ≤ k → (m'.map.findNewIndex k ≠ 0 ↔ m.map.findNewIndex k ≠ 0) := by
    intro k hk
    refine ⟨fun hne => (hremaps.only k hne).resolve_right (by omega), fun hne => ?_⟩
    rwa [hremaps.keeps k hne]
  refine ⟨hbooks, fun k hheld => ?_, fun k hk hne => ?_, fun k hk hresolved => ?_,
    before_next hgap (fun k hk hplaced => ?_) (fun h => absurd h hplaced)
      fun k hinvalid hplaced => absurd hinvalid hplaced.1, fun hlow => ?_⟩
  · rw [hsame.entries] at hheld
    exact (h.there k hheld).mono (le_of_lt hlt)
  · exact h.free k (by omega) ((honly k hk).mp hne)
  · rw [honly k hk, h.shared k (by omega) hresolved, MappedBefore.next hgap hlt, hto]
    simp
  · refine (h.placed k hk hplaced).imp_right fun hat => ?_
    rw [hremaps.keeps k hat.1, hremaps.newIndex_eq hat.1]
    exact hat
  · have hbefore := h.low fun k hk => hlow k (lt_trans hk hlt)
    refine ⟨hvalues (hlow t hlt) hbefore, ?_, ?_⟩
    · rw [hsame.packed]
      exact hbefore.packed
    · rw [hsame.entries]
      exact hbefore.again

/-- The index of a class that is mapped, and of which a copy is added, is not recorded again. -/
theorem Kept.low_of_mapped (hp : Pools base scratch) (h : Kept base scratch capacity t m)
    (happended : Appended scratch t m m') (hmapped : MappedBefore base scratch t t)
    (hlow : Low base scratch m) : Low base scratch m' := by
  obtain ⟨added, hbooks⟩ := h.books
  have hresolved : resolved (entryAt scratch t) = true := by
    obtain ⟨j, -, hto, hfirst, -⟩ := hmapped
    obtain ⟨pair, hindices, rfl⟩ := Option.map_eq_some_iff.mp hfirst
    rw [toResolved_eq pair.1 pair.2 hindices, Bool.and_eq_true] at hto
    exact hto.2
  have hne := (h.shared t le_rfl hresolved).mpr hmapped
  obtain ⟨hfloating, -⟩ := resolved_facts hresolved
  have hnone : indices (entryAt scratch t) = none := by
    cases hentry : entryAt scratch t <;> rw [hentry] at hresolved <;>
      first | rfl | cases hresolved
  have hself : SelfAlike scratch t := hp.parsed.selfAlike (fun hinvalid => by
    rw [hinvalid] at hresolved
    cases hresolved) hfloating
  obtain ⟨hpacked, hvalues⟩ := happended.flat hnone
  obtain ⟨new, hnew⟩ := happended.grown
  have hkept : ∀ {k q}, alike depth (scratch.map revert) k m.entries q = true →
      alike depth (scratch.map revert) k m'.entries q = true := by
    intro k q hq
    rw [hnew, alike_append new hbooks.closed (lt_of_alike hq), hq]
  refine ⟨fun value hvalue => ?_, by rw [hpacked]; exact hlow.packed, fun k p hge halike => ?_⟩
  · exact (hvalues value hvalue).elim (hlow.values value) fun hzero => absurd hzero.1 hne
  · rcases lt_or_ge p m.entries.length with hlt | hge'
    · rw [hnew, alike_append new hbooks.closed hlt] at halike
      obtain ⟨q, hq, hqk⟩ := hlow.again k p hge halike
      exact ⟨q, hq, hkept hqk⟩
    · obtain ⟨x, hx, hxk⟩ := happended.fresh k p hge' halike
      rw [reached, parts_of_flat hnone, List.mem_singleton] at hx
      subst hx
      have hat := hbooks.map x hself hne
      have hlt := hlow.values _ (IndexMap.findNewIndex_mem hne)
      refine ⟨m.map.newIndex x, ?_, hkept (alike_trans (alike_symm hxk) hat)⟩
      rw [IndexMap.newIndex, if_pos hne]
      omega

/-- What is added at an index of two bytes. -/
theorem Kept.low_of_placed (h : Kept base scratch capacity t m)
    (happended : Appended scratch t m m') (hframe : Frame base scratch capacity m')
    (hplace : m'.entries.length - width (entryAt scratch t) < 2 ^ 16)
    (hlow : Low base scratch m) : Low base scratch m' := by
  obtain ⟨added, hbooks⟩ := h.books
  cases hindices : indices (entryAt scratch t) with
  | some pair =>
    have hlength : m'.entries.length ≤ 2 ^ 16 := by
      rw [(not_resolved_of_indices hindices).2] at hplace
      omega
    refine ⟨fun value hvalue => ?_, fun j hj => lt_of_lt_of_le (hframe.packed j hj) hlength,
      fun k p _ halike => ⟨p, lt_of_lt_of_le (lt_of_alike halike) hlength, halike⟩⟩
    have hlt := hframe.values value hvalue
    omega
  | none =>
    obtain ⟨hpacked, hvalues⟩ := happended.flat hindices
    obtain ⟨new, hnew⟩ := happended.grown
    refine ⟨fun value hvalue => ?_, by rw [hpacked]; exact hlow.packed, fun k p hge halike => ?_⟩
    · rcases hvalues value hvalue with hvalue | ⟨-, rfl⟩
      · exact hlow.values value hvalue
      · exact_mod_cast hplace
    · rcases lt_or_ge p m.entries.length with hlt | hge'
      · rw [hnew, alike_append new hbooks.closed hlt] at halike
        obtain ⟨q, hq, hqk⟩ := hlow.again k p hge halike
        exact ⟨q, hq, by rw [hnew, alike_append new hbooks.closed (lt_of_alike hqk), hqk]⟩
      · obtain ⟨x, hx, hxk⟩ := happended.fresh k p hge' halike
        rw [reached, parts_of_flat hindices, List.mem_singleton] at hx
        subst hx
        exact ⟨_, hplace, alike_trans (alike_symm hxk)
          (happended.located (selfAlike_of_alike hxk))⟩

/-- What a turn adds and records was not mapped before. -/
theorem Kept.not_mapped (hp : Pools base scratch) (h : Kept base scratch capacity t m)
    (hplaced : Placed base scratch t) : m.map.findNewIndex t = 0 := by
  obtain ⟨hne, -, hown, hmapped⟩ := hplaced
  obtain ⟨added, hbooks⟩ := h.books
  by_contra hfind
  have hkind := h.free t le_rfl hfind
  cases hresolved : resolved (entryAt scratch t) with
  | true => exact hmapped ((h.shared t le_rfl hresolved).mp hfind)
  | false =>
    have href : isRef (entryAt scratch t) = false := by
      cases hentry : entryAt scratch t <;> rw [hentry] at hkind <;>
        first | rfl | simp [isUtf8, isKlass, isNameAndType] at hkind
    have hrenewed : renewed scratch t = false := by
      rw [renewed, hresolved, toResolved_of_not_isRef href]
      rfl
    have hself := hp.parsed.selfAlike hne (Grows.isFloating_of_referred hkind)
    exact hown.resolve_left (by simp [hrenewed]) (h.there t ⟨_, hbooks.map t hself hfind⟩)

/-- A turn that adds its entry. -/
theorem Kept.next_appended (hp : Pools base scratch) (h : Kept base scratch capacity t m)
    (hne : entryAt scratch t ≠ .invalid) (hpassed : passedOver base scratch t = false)
    (hown : renewed scratch t = true ∨ ¬There base scratch t t)
    (hgap : ∀ j, t < j → j < t + width (entryAt scratch t) → entryAt scratch j = .invalid)
    (hbooks : ∃ added, Books base scratch capacity (t + width (entryAt scratch t)) added
      (refsBefore scratch (t + width (entryAt scratch t))) m')
    (happended : Appended scratch t m m') (hclass : ClassMapped scratch t m m') :
    Kept base scratch capacity (t + width (entryAt scratch t)) m' := by
  have hlt : t < t + width (entryAt scratch t) := Nat.lt_add_of_pos_right (one_le_width _)
  obtain ⟨added, hbefore⟩ := h.books
  obtain ⟨added', hafter⟩ := hbooks
  have hthere : ∀ k, Held scratch m'.entries k →
      There base scratch (t + width (entryAt scratch t)) k := by
    intro k hheld
    rcases happended.held hbefore.closed hheld with hheld | ⟨x, hx, hxk⟩
    · exact (h.there k hheld).mono (le_of_lt hlt)
    · exact .of_reached hlt hpassed hx hxk
  have hplace : m'.entries.length - width (entryAt scratch t) = place base scratch t := by
    rw [place, hafter.length_eq hp hthere]
  have hparts : ∀ k : Nat, t < k → m'.map.findNewIndex k ≠ 0 →
      m.map.findNewIndex k ≠ 0 ∨ k ∈ parts scratch t := fun k hk hfind =>
    (happended.only k hfind).imp_right fun hmem =>
      (List.mem_cons.mp hmem).resolve_left (Nat.ne_of_gt hk)
  refine ⟨⟨added', hafter⟩, hthere, fun k hk hfind => ?_, fun k hk hresolved => ?_,
    before_next hgap (fun k hk hplaced => ?_) (fun hplaced => ?_)
      fun k hinvalid hplaced => absurd hinvalid hplaced.1, fun hlow => ?_⟩
  · rcases hparts k (lt_of_lt_of_le hlt hk) hfind with hfind | hmem
    · exact h.free k (by omega) hfind
    · exact (hp.parsed.mem_parts hmem).2
  · rw [MappedBefore.next hgap hlt, ← h.shared k (by omega) hresolved,
      ← hbefore.length_eq hp h.there]
    by_cases hmem : k ∈ parts scratch t
    · obtain ⟨hto, second, hindices⟩ := hp.parsed.resolved_part hmem hresolved
      rw [ne_eq, hclass k second hindices hto, not_and_or, hto, hindices]
      simp
    · have hnot : ¬(toResolved scratch t = true ∧
          (indices (entryAt scratch t)).map Prod.fst = some k ∧ m.entries.length ≠ k) := by
        rintro ⟨-, hfirst, -⟩
        obtain ⟨pair, hindices, rfl⟩ := Option.map_eq_some_iff.mp hfirst
        have hsubset : reached scratch pair.1 ⊆ parts scratch t :=
          (hp.parsed.reached_subset hindices).1
        exact hmem (hsubset (by simp [reached]))
      rw [or_iff_left hnot]
      refine ⟨fun hfind => (hparts k (lt_of_lt_of_le hlt hk) hfind).resolve_right hmem,
        fun hfind => ?_⟩
      rwa [happended.keeps k hfind]
  · refine (h.placed k hk hplaced).imp_right fun hat => ?_
    rw [IndexMap.newIndex, happended.keeps k hat.1, ← IndexMap.newIndex]
    exact hat
  · have hat := happended.own (h.not_mapped hp hplaced)
    rw [hplace] at hat
    by_cases hzero : m'.map.findNewIndex t = 0
    · exact Or.inl (hat.symm.trans (IndexMap.newIndex_of_eq_zero hzero))
    · exact Or.inr ⟨hzero, hat⟩
  · have hbefore' := h.low fun k hk => hlow k (lt_trans hk hlt)
    by_cases hmapped : MappedBefore base scratch t t
    · exact h.low_of_mapped hp happended hmapped hbefore'
    · refine h.low_of_placed happended hafter.toFrame ?_ hbefore'
      rw [hplace]
      exact (hlow t hlt).placed ⟨hne, hpassed, hown, hmapped⟩

theorem findOrAppend_spec (hp : Pools base scratch) (h : Kept base scratch capacity t m)
    (ht : t < scratch.length) (hpaired : Paired (scratch.drop t))
    (hpassed : passedOver base scratch t = false) {same : Bool}
    (hsame : same = true → alike depth scratch t m.entries t = false) :
    Concludes (Short base scratch capacity) (Wide.findOrAppend scratch t same m)
      (Kept base scratch capacity (t + width (entryAt scratch t))) := by
  obtain ⟨added, hbooks⟩ := h.books
  obtain ⟨hne, hlt, hgap⟩ := next_of_paired ht hpaired
  have heq := fun k => alike_eq (i := t) (k := k) hp.parsed.toBuilt hbooks.plain
  obtain ⟨k, hk, hfound⟩ := hbooks.findMatchingEntry_eq hp.parsed hne
  unfold Wide.findOrAppend
  rw [hk, bind_ok]
  rcases hfound with ⟨hzero, hnone⟩ | ⟨hpos, halike, hleast⟩
  · rw [if_neg (not_not.mpr hzero)]
    have hown : renewed scratch t = true ∨ ¬There base scratch t t := by
      rw [or_iff_not_imp_left, Bool.not_eq_true]
      intro hrenewed hthere
      obtain ⟨p, hp'⟩ := hbooks.held_of_there hp hthere
      have hfalse := hnone p
      rw [heq, hrenewed, hp'] at hfalse
      cases hfalse
    by_cases hnew : renewed scratch t = true ∨ ¬SelfAlike scratch t
    · exact (appendEntry_own hp hbooks hne hpassed hnew hgap hlt).weaken (fun _ => id)
        fun m' hm' => h.next_appended hp hne hpassed hown hgap hm'.1 hm'.2.1 hm'.2.2
    · push Not at hnew
      have hrenewed := Bool.eq_false_iff.mpr hnew.1
      have hrefs := refs_of_not_renewed hrenewed hgap hlt
      have hagain : again scratch t = 0 := by
        rw [again, (Bool.or_eq_false_iff.mp hrenewed).1]
        rfl
      refine (appendEntry_spec hp depth hbooks (Nat.lt_succ_of_le (level_le_two _))
        (Or.inl ⟨hrenewed, hnew.2, hpassed, fun _ => self_mem_brought hpassed⟩) ?_ ?_).weaken
        (fun _ => id) ?_
      · rw [hagain]
        exact hbooks.refs
      · rintro - ⟨p, hp'⟩
        have hfalse := hnone p
        rw [heq, hrenewed, hp'] at hfalse
        cases hfalse
      · rintro m' ⟨hlocated, happended⟩
        obtain ⟨added', hbooks'⟩ := hlocated.books
        rw [hagain, Nat.add_zero] at hbooks'
        refine h.next_appended hp hne hpassed hown hgap ⟨added', ?_⟩ happended
          fun klass second _ hto => ?_
        · rw [hrefs]
          exact hbooks'.close_held hp.parsed hrenewed hgap (le_of_lt hlt) ⟨_, hlocated.located⟩
            hlocated.unmapped
        · rw [(Bool.or_eq_false_iff.mp hrenewed).2] at hto
          cases hto
  · have hguard : ¬(same = true ∧ k = t) := by
      rintro ⟨htrue, rfl⟩
      rw [hsame htrue] at halike
      cases halike
    rw [if_pos hpos, if_neg hguard]
    obtain ⟨hrange, hlength⟩ := hp.parsed.range hne
    have hat := halike
    rw [heq, Bool.and_eq_true, Bool.not_eq_true'] at hat
    obtain ⟨hframe, hremaps⟩ := hbooks.toFrame.mapIndex hrange hlength (lt_of_alike halike) hpos
      (Or.inl hpassed) fun _ => hat.2
    refine Concludes.ok (h.next_unchanged hgap hlt ⟨added, ?_⟩ ⟨rfl, rfl, k, hremaps⟩
      (Bool.or_eq_false_iff.mp hat.1).2 ?_ fun htwo hlow value hvalue => ?_)
    · rw [refs_of_not_renewed hat.1 hgap hlt]
      exact (hbooks.of_entries hframe rfl fun k hzero =>
        (hremaps.unmapped k hzero).1).close_held hp.parsed hat.1 hgap (le_of_lt hlt) ⟨k, hat.2⟩
          (hremaps.alike_self hat.2)
    · rintro ⟨-, -, hown, -⟩
      exact hown.elim (by simp [hat.1]) fun hnot => hnot (h.there t ⟨k, hat.2⟩)
    · rcases hremaps.values value hvalue with hvalue | ⟨-, rfl⟩
      · exact hlow.values value hvalue
      · obtain ⟨q, hq, hqt⟩ : ∃ q < 2 ^ 16, alike depth scratch t m.entries q = true := by
          rcases lt_or_ge k base.length with hold | hnew
          · obtain ⟨new, hnew⟩ := hbooks.grown
            rw [hnew, alike_append new hp.closed hold] at halike
            obtain ⟨q, hq, hqt⟩ := htwo.found hpassed k halike
            exact ⟨q, hq, by rw [hnew, alike_append new hp.closed (lt_of_alike hqt), hqt]⟩
          · obtain ⟨q, hq, hqt⟩ := hlow.again t k hnew hat.2
            exact ⟨q, hq, by rw [heq, hat.1, hqt]; rfl⟩
        have hle : k ≤ q := by
          by_contra hgt
          rw [hleast q (not_le.mp hgt)] at hqt
          cases hqt
        exact_mod_cast lt_of_le_of_lt hle hq

theorem turnBeyond_spec (hp : Pools base scratch) (h : Kept base scratch capacity t m)
    (ht : t < scratch.length) (hbeyond : base.length ≤ t) (hpaired : Paired (scratch.drop t)) :
    Concludes (Short base scratch capacity) (Wide.turnBeyond scratch t m)
      (Kept base scratch capacity (t + width (entryAt scratch t))) := by
  have hpassed : passedOver base scratch t = false := by
    rw [passedOver, decide_eq_false (not_lt.mpr hbeyond)]
    rfl
  exact findOrAppend_spec hp h ht hpaired hpassed (by simp)

/-- What is passed over is neither counted nor a reference. -/
theorem Kept.next_passed (h : Kept base scratch capacity t m)
    (hpassed : passedOver base scratch t = true) (hlt : t < t')
    (hgap : ∀ j, t < j → j < t' → entryAt scratch j = .invalid) :
    Kept base scratch capacity t' m := by
  obtain ⟨added, hbooks⟩ := h.books
  have hto : toResolved scratch t = false := by
    refine toResolved_of_not_isRef ?_
    unfold passedOver isUnresolvedClassMismatch isUnresolvedStringMismatch at hpassed
    cases hentry : entryAt scratch t <;> first | rfl | simp [hentry] at hpassed
  have hbrought : brought base scratch t = [] := by rw [brought, if_pos hpassed]
  refine h.next_unchanged hgap hlt ⟨added, ?_⟩ ⟨rfl, rfl, t, .refl (Or.inr rfl)⟩ hto
    (fun hplaced => ?_) fun _ hlow => hlow.values
  · rw [refsBefore_next hgap hlt, hto]
    refine hbooks.close hgap (le_of_lt hlt) (fun hcounted => ?_) (fun x hx => ?_) fun x hx => ?_
    · rw [hcounted.2.1] at hpassed
      cases hpassed
    · rw [hbrought] at hx
      cases hx
    · rw [hbrought] at hx
      cases hx
  · rw [hplaced.2.1] at hpassed
    cases hpassed

theorem turnCommon_spec (hp : Pools base scratch) (h : Kept base scratch capacity t m)
    (ht : t < scratch.length) (hcommon : t < base.length) (hpaired : Paired (scratch.drop t)) :
    Concludes (Short base scratch capacity) (Wide.turnCommon scratch t m)
      (Kept base scratch capacity (t + width (entryAt scratch t))) := by
  obtain ⟨added, hbooks⟩ := h.books
  obtain ⟨hne, hlt, hgap⟩ := next_of_paired ht hpaired
  obtain ⟨new, hnew⟩ := hbooks.grown
  have hpassed : (isUnresolvedClassMismatch (entryAt scratch t) (entryAt m.entries t) = true ∨
      isUnresolvedStringMismatch (entryAt scratch t) (entryAt m.entries t) = true) ↔
        passedOver base scratch t = true := by
    rw [hnew, entryAt_append hcommon, passedOver, decide_eq_true hcommon, Bool.true_and,
      Bool.or_eq_true]
  unfold Wide.turnCommon
  rw [compareEntryTo_eq (hp.parsed.deep_depth hne), bind_ok]
  split
  next hsame =>
    rw [alike_eq hp.parsed.toBuilt hbooks.plain, Bool.and_eq_true, Bool.not_eq_true'] at hsame
    refine Concludes.ok (h.next_unchanged hgap hlt ⟨added, ?_⟩ ⟨rfl, rfl, t, .refl (Or.inr rfl)⟩
      (Bool.or_eq_false_iff.mp hsame.1).2 ?_ fun _ hlow => hlow.values)
    · rw [refs_of_not_renewed hsame.1 hgap hlt]
      exact hbooks.close_held hp.parsed hsame.1 hgap (le_of_lt hlt) ⟨t, hsame.2⟩ fun _ => hsame.2
    · rintro ⟨-, -, hown, -⟩
      exact hown.elim (by simp [hsame.1]) fun hnot => hnot (h.there t ⟨t, hsame.2⟩)
  next hsame =>
    split
    next hmismatch => exact Concludes.ok (h.next_passed (hpassed.mp hmismatch) hlt hgap)
    next hmismatch =>
      exact findOrAppend_spec hp h ht hpaired
        (Bool.eq_false_iff.mpr fun htrue => hmismatch (hpassed.mpr htrue))
        fun _ => Bool.eq_false_iff.mpr hsame

end Turns

/-! ## The merge -/

theorem pools_of_parsed {old scratch : Entries} (hold : Laid old) (hclosed : Closed old)
    (hscratch : Parsed scratch) : Pools (reverted old) scratch := by
  have hentry := entryAt_map_revert old
  rw [← reverted_eq hold] at hentry
  have hlength : (reverted old).length = old.length := by rw [reverted_eq hold, List.length_map]
  refine ⟨hscratch, hlength ▸ hold.pos, rfl, fun i first second hi => ?_, fun k => ?_⟩
  · rw [hentry, indices_revert] at hi
    rw [hlength]
    exact hclosed i first second hi
  · rw [hentry, resolved_revert]

theorem kept_start {base scratch : Entries} (hp : Pools base scratch) {capacity : Nat}
    (hcapacity : base.length ≤ capacity) :
    Kept base scratch capacity 1 ⟨base, capacity, .empty scratch.length, []⟩ := by
  have hfirst : ∀ k < 1, entryAt scratch k = .invalid := fun k hk => by
    rw [Nat.lt_one_iff.mp hk]
    exact hp.parsed.first
  have hrefs : refsBefore scratch 1 = 0 := by
    rw [refsBefore, sum_range_one, toResolved, hfirst 0 Nat.one_pos]
    rfl
  have hmap : ∀ k : Nat, (IndexMap.empty scratch.length).findNewIndex k = 0 := fun _ => rfl
  have hvalues : ∀ value ∈ (IndexMap.empty scratch.length).values, value = -1 :=
    fun _ => List.eq_of_mem_replicate
  have hframe : Frame base scratch capacity ⟨base, capacity, .empty scratch.length, []⟩ := by
    refine ⟨⟨[], (List.append_nil _).symm⟩, rfl, hcapacity, hp.pos, hp.first, hp.plain,
      hp.closed, .empty _, fun k _ hne => absurd (hmap k) hne, fun k hne => absurd (hmap k) hne,
      fun value hvalue => ?_, fun _ hi => absurd hi List.not_mem_nil⟩
    rw [hvalues value hvalue]
    exact lt_of_lt_of_le (by decide) (Int.natCast_nonneg _)
  refine ⟨⟨∅, hframe, ?_, ?_, by simp, by simp,
    fun k hk hcounted => absurd (hfirst k hk) hcounted.1, fun k hrenewed hcounted hheld => ?_,
    fun k hk x hx hself => absurd hself (not_selfAlike_of_brought (hfirst k hk) x hx),
    fun k hk x hx _ hself => absurd hself (not_selfAlike_of_brought (hfirst k hk) x hx)⟩,
    fun _ hheld => Or.inl (hheld.imp fun _ halike => ⟨lt_of_alike halike, halike⟩),
    fun k _ hne => absurd (hmap k) hne, fun k _ _ => ⟨fun hne => absurd (hmap k) hne, ?_⟩,
    fun k hk hplaced => absurd (hfirst k hk) hplaced.1, fun _ => ⟨fun value hvalue => ?_,
      fun _ hi => absurd hi List.not_mem_nil,
      fun k p hge halike => absurd (lt_of_alike halike) (not_lt.mpr hge)⟩⟩
  · rw [hrefs]
    simp
  · exact refsBefore_mono hp.parsed.pos
  · obtain ⟨p, hp'⟩ := hheld
    have hfalse := hcounted.2.2.1 p (lt_of_alike hp')
    rw [alike_eq hp.parsed.toBuilt hp.plain, hrenewed, hp'] at hfalse
    cases hfalse
  · rintro ⟨j, hj, hto, -⟩
    rw [toResolved, hfirst j hj] at hto
    cases hto
  · rw [hvalues value hvalue]
    decide

/-- The merge into wide entries: the invariant after the last turn, or the merged pool is too
small. -/
theorem mergeConstantPools_spec {old scratch : ConstantPool} (hold : Laid old.entries)
    (hclosed : Closed old.entries) (hscratch : Parsed scratch.entries) :
    Concludes
      (Short (reverted old.entries) scratch.entries (old.entries.length + scratch.entries.length))
      (Wide.mergeConstantPools old scratch) fun m => ∃ t, scratch.entries.length ≤ t ∧
        Kept (reverted old.entries) scratch.entries
          (old.entries.length + scratch.entries.length) t m := by
  have hp := pools_of_parsed hold hclosed hscratch
  have hlength : (reverted old.entries).length = old.entries.length := by
    rw [reverted_eq hold, List.length_map]
  rw [Wide.mergeConstantPools, copyOld_eq hold.paired, bind_ok]
  refine (pass_concludes (P := Kept _ _ _) 0 (Nat.min_le_right ..) (fun t m h _ _ hlt hpaired => ?_)
    (kept_start hp ?_) Nat.one_pos (Nat.zero_le _) hscratch.paired (by omega)).bind ?_
  · exact turnCommon_spec hp h (lt_of_lt_of_le hlt (Nat.min_le_right ..))
      (hlength ▸ lt_of_lt_of_le hlt (Nat.min_le_left ..)) hpaired
  · rw [hlength]
    exact Nat.le_add_right ..
  rintro ⟨t, m⟩ ⟨h, hpos, hmin, hpaired⟩
  refine (pass_concludes (P := Kept _ _ _) t le_rfl (fun t' m h _ hle hlt hpaired => ?_) h hpos
    le_rfl hpaired (by omega)).bind fun p hlast => Concludes.ok ⟨p.1, hlast.2.2.1, hlast.1⟩
  exact turnBeyond_spec hp h hlt (by omega) hpaired

theorem Kept.length_eq {base scratch : Entries} {capacity t : Nat} {m : Merge}
    (h : Kept base scratch capacity t m) (ht : scratch.length ≤ t) :
    m.entries.length = base.length + newSlots base scratch := by
  obtain ⟨added, hbooks⟩ := h.books
  have hrefs : refsBefore scratch t = refsBefore scratch scratch.length := by
    refine le_antisymm hbooks.refs (refsBefore_mono ht)
  have hadded : added = (range scratch.length).filter fun k => Counted base scratch k := by
    ext k
    rw [mem_filter, mem_range]
    exact ⟨fun hk => ⟨(hbooks.counted k hk).lt, hbooks.counted k hk⟩,
      fun hk => hbooks.done k (lt_of_lt_of_le hk.1 ht) hk.2⟩
  rw [hbooks.size, newSlots, sum_add_distrib, ← sum_filter, hrefs, hadded, refsBefore]

section Merging

variable {old scratch : ConstantPool} {m : Merge}

/-- A merge into wide entries that packs nothing that is cut is the merge of the code. -/
theorem mergeConstantPools_eq_ok_iff (hcut : ¬Cut m) :
    mergeConstantPools old scratch = .ok m ↔ Wide.mergeConstantPools old scratch = .ok m := by
  rcases mergeConstantPools_agrees old scratch with hsame | ⟨hlost, hlost'⟩
  · rw [hsame]
  · exact ⟨fun hm => absurd (hlost.of_ok hm) hcut, fun hm => absurd (hlost'.of_ok hm) hcut⟩

theorem wide_of_slots (hold : Laid old.entries) (hclosed : Closed old.entries)
    (hscratch : Parsed scratch.entries)
    (hslots : newSlots (reverted old.entries) scratch.entries ≤ scratch.entries.length) :
    ∃ m, Wide.mergeConstantPools old scratch = .ok m ∧ ∃ t, scratch.entries.length ≤ t ∧
      Kept (reverted old.entries) scratch.entries
        (old.entries.length + scratch.entries.length) t m := by
  have hspec := mergeConstantPools_spec hold hclosed hscratch
  cases hm : Wide.mergeConstantPools old scratch with
  | ok m => exact ⟨m, rfl, hspec.of_ok hm⟩
  | error stop =>
    rw [hm] at hspec
    obtain ⟨-, hshort⟩ := hspec
    rw [reverted_eq hold, List.length_map] at hshort
    rw [reverted_eq hold] at hslots
    omega

/-- In the end, what is recorded and packed has two bytes only if every turn sees to it. -/
theorem Kept.twoBytes {base scratch : Entries} {capacity t k : Nat} (hp : Pools base scratch)
    (hlength : scratch.length ≤ 2 ^ 16) (h : Kept base scratch capacity t m)
    (ht : scratch.length ≤ t) (hvalues : ∀ value ∈ m.map.values, value < 2 ^ 16) :
    TwoBytes base scratch k := by
  obtain ⟨added, hbooks⟩ := h.books
  have hnew : m.map.findNewIndex k ≠ 0 → m.map.newIndex k < 2 ^ 16 := by
    intro hne
    have hlt := hvalues _ (IndexMap.findNewIndex_mem hne)
    rw [IndexMap.newIndex, if_pos hne]
    omega
  refine ⟨fun hplaced => ?_, fun hpassed old halike => ?_⟩
  · have hrange := (hp.parsed.range hplaced.1).2
    rcases h.placed k (by omega) hplaced with hat | ⟨hne, hat⟩
    · omega
    · exact hat ▸ hnew hne
  · have hrenewed : renewed scratch k = false := by
      rw [renewed_of_alike halike, renewed_eq_false hp.plain]
    have hrange := (hp.parsed.range (ne_invalid_of_alike (alike_symm halike))).2
    have hself := selfAlike_of_plain hp.parsed.toBuilt hrenewed halike
    obtain ⟨q, hq, hqk⟩ : ∃ q < 2 ^ 16,
        alike depth (scratch.map revert) k m.entries q = true := by
      by_cases hzero : m.map.findNewIndex k = 0
      · exact ⟨k, by omega, hbooks.turned k (by omega) k (self_mem_brought hpassed) (Or.inl rfl)
          hself hzero⟩
      · exact ⟨_, hnew hzero, hbooks.map k hself hzero⟩
    rcases lt_or_ge q base.length with hlt | hge
    · obtain ⟨new, hnew⟩ := hbooks.grown
      rw [hnew, alike_append new hp.closed hlt, alike_revert (hp.parsed.plain hrenewed)] at hqk
      exact ⟨q, hq, hqk⟩
    · exact ⟨old, by have := lt_of_alike halike; omega, halike⟩

/-- A merge stays in bounds exactly when what is added is no more than the new pool has, and what
every turn records has two bytes. -/
theorem inBounds_iff (hold : Laid old.entries) (hclosed : Closed old.entries)
    (hscratch : Parsed scratch.entries) (hlength : scratch.entries.length ≤ 2 ^ 16) :
    InBounds old scratch ↔
      newSlots (reverted old.entries) scratch.entries ≤ scratch.entries.length ∧
        ∀ t, TwoBytes (reverted old.entries) scratch.entries t := by
  have hp := pools_of_parsed hold hclosed hscratch
  constructor
  · rintro ⟨m, hm, hvalues, hpacked⟩
    have hcut : ¬Cut m := fun ⟨i, hi, hge⟩ => absurd (hpacked i hi) (not_lt.mpr hge)
    obtain ⟨t, ht, hkept⟩ := (mergeConstantPools_spec hold hclosed hscratch).of_ok
      ((mergeConstantPools_eq_ok_iff hcut).mp hm)
    have hend := hkept.length_eq ht
    obtain ⟨added, hbooks⟩ := hkept.books
    have hfits := hbooks.fits
    have hbase : (reverted old.entries).length = old.entries.length := by
      rw [reverted_eq hold, List.length_map]
    exact ⟨by omega, fun k => hkept.twoBytes hp hlength ht hvalues⟩
  · rintro ⟨hslots, htwo⟩
    obtain ⟨m, hm, t, -, hkept⟩ := wide_of_slots hold hclosed hscratch hslots
    have hlow := hkept.low fun k _ => htwo k
    have hcut : ¬Cut m := fun ⟨i, hi, hge⟩ => absurd (hlow.packed i hi) (not_lt.mpr hge)
    exact ⟨m, (mergeConstantPools_eq_ok_iff hcut).mpr hm, hlow.values, hlow.packed⟩

end Merging

/-- A pool without classes. -/
def oneSymbol : ConstantPool := ⟨[.invalid, .utf8 [90]], none⟩

/-- One reference to a resolved class. -/
def oneReference : ConstantPool :=
  ⟨[.invalid, .klass [65], .utf8 [109], .utf8 [40, 41, 86], .nameAndType 2 3, .method 1 4], none⟩

theorem laid_oneSymbol : Laid oneSymbol.entries := ⟨by decide, rfl, trivial⟩

theorem closed_oneSymbol : Closed oneSymbol.entries := by
  intro i first second h
  rcases i with _ | _ | i <;> cases h

theorem parsed_oneReference : Parsed oneReference.entries where
  pos := by decide
  first := rfl
  paired := trivial
  nameAndType {i name signature} h := by
    rcases i with _ | _ | _ | _ | _ | _ | i <;> cases h
    exact ⟨rfl, rfl⟩
  ref {i klass nameAndType} href h := by
    rcases i with _ | _ | _ | _ | _ | _ | i <;> first | (cases href; done) | cases h
    exact ⟨rfl, rfl⟩
  class_ok i name h := by
    rcases i with _ | _ | _ | _ | _ | _ | i <;> cases h

/-- The class is added twice and the merged pool is full. -/
theorem inBounds_iff_oneReference :
    InBounds oneSymbol oneReference ∧
      newSlots (reverted oneSymbol.entries) oneReference.entries ≤ oneReference.entries.length ∧
      ∀ t, TwoBytes (reverted oneSymbol.entries) oneReference.entries t := by
  have hin : InBounds oneSymbol oneReference := ⟨_, rfl, by decide, by decide⟩
  exact ⟨hin, (inBounds_iff laid_oneSymbol closed_oneSymbol parsed_oneReference (by decide)).mp hin⟩

/-- Two more references to the class, and the merge writes beyond the merged pool. -/
theorem not_inBounds_threeReferences :
    ¬InBounds oneSymbol ⟨oneReference.entries ++ [.method 1 4, .method 1 4], none⟩ := by
  rintro ⟨m, hm, -⟩
  cases hm

end HotSpot.PoolMerge
