import HotSpot.Prims.MergePlaces
import HotSpot.Prims.MergeWide

/-! # What the turn of an entry adds

An entry that the merged pool does not have is appended behind what it refers to, which is found
or appended before it: what that does to the books, to the index map and to the constants that
the merged pool has.
-/

namespace HotSpot.PoolMerge

open Finset

/-! ## Locating what an entry refers to -/

section Locating

variable {base scratch : Entries} {capacity t t' r i : Nat} {added : Finset Nat} {m m' : Merge}

/-- What the turn of `t` locates: entries that can be found, and the resolved class of a
reference. -/
def Locatable (base scratch : Entries) (t i : Nat) : Prop :=
  renewed scratch i = false ∧ SelfAlike scratch i ∧ passedOver base scratch i = false ∧
      (isClassOrRef (entryAt scratch i) = true → i ∈ brought base scratch t) ∨
    resolved (entryAt scratch i) = true ∧ i ∈ brought base scratch t ∧ t < scratch.length ∧
      renewed scratch t = true

theorem Locatable.ne_invalid (h : Locatable base scratch t i) : entryAt scratch i ≠ .invalid := by
  intro hinvalid
  rcases h with ⟨-, hself, -⟩ | ⟨hresolved, -⟩
  · exact not_selfAlike_of_invalid hinvalid hself
  · rw [hinvalid] at hresolved
    cases hresolved

theorem Locatable.mine (h : Locatable base scratch t i) :
    passedOver base scratch i = false ∨ Referenced scratch i :=
  h.elim (fun hleft => Or.inl hleft.2.2.1) fun hright => mine_of_brought hright.2.1

/-- The classes that an entry adds besides what is counted. -/
def again (scratch : Entries) (i : Nat) : Nat := if resolved (entryAt scratch i) then 1 else 0

/-- The constant at `i` is at `x` of the merged pool, which has grown by entries that refer no
deeper. -/
structure Located (base scratch : Entries) (capacity t r i x : Nat) (m m' : Merge) : Prop
    extends Effect scratch (reached scratch i) m m' where
  books : ∃ added', Books base scratch capacity t added' r m'
  shallow : ∃ new, m'.entries = m.entries ++ new ∧
    ∀ e ∈ new, level e ≤ level (entryAt scratch i)
  located : alike depth (scratch.map revert) i m'.entries x = true
  unmapped : m'.map.findNewIndex i = 0 → alike depth (scratch.map revert) i m'.entries i = true
  shared : resolved (entryAt scratch i) = true →
    (m'.map.findNewIndex i = 0 ↔ m.map.findNewIndex i = 0 ∧ m.entries.length = i)

theorem locate_spec (hp : Pools base scratch) (h : Books base scratch capacity t added r m)
    (hi : Locatable base scratch t i) {app : Nat → Merge → Except Stop Merge}
    (happend : (renewed scratch i = false → ¬Held scratch m.entries i) →
      Concludes (Short base scratch capacity) (app i m) fun m' =>
        Located base scratch capacity t (r + again scratch i) i (m'.entries.length - 1) m m') :
    Concludes (Short base scratch capacity) (locate app scratch i m) fun (x, m') =>
      Located base scratch capacity t (r + again scratch i) i x m m' := by
  have hne := hi.ne_invalid
  have heq := fun k => alike_eq (i := i) (k := k) hp.parsed.toBuilt h.plain
  have hmatched : ∀ {k m'} (_ : Books base scratch capacity t added r m')
      (_ : m'.entries = m.entries) (_ : Remaps i k m.map m'.map),
      alike depth scratch i m.entries k = true →
        Located base scratch capacity t (r + again scratch i) i k m m' := by
    intro k m' hbooks hentries hremaps halike
    rw [heq, Bool.and_eq_true, Bool.not_eq_true'] at halike
    have hresolved := (Bool.or_eq_false_iff.mp halike.1).1
    have hagain : again scratch i = 0 := by
      rw [again, hresolved]
      rfl
    rw [hagain]
    rw [← hentries] at halike
    refine ⟨(Effect.of_entries hentries hremaps).mono (by simp [reached]), ⟨added, hbooks⟩,
      ⟨[], ?_, fun e he => absurd he List.not_mem_nil⟩, halike.2, hremaps.alike_self halike.2,
      fun htrue => ?_⟩
    · rw [hentries, List.append_nil]
    · rw [hresolved] at htrue
      cases htrue
  unfold locate
  rw [hp.parsed.matchesSame_eq hne, bind_ok]
  split
  next hsame => exact Concludes.ok (hmatched h rfl (.refl (Or.inr rfl)) hsame)
  next hsame =>
    obtain ⟨k, hk, hfound⟩ := h.findMatchingEntry_eq hp.parsed hne
    rw [hk, bind_ok]
    rcases hfound with ⟨hzero, hnone⟩ | ⟨hpos, halike, -⟩
    · rw [if_neg (not_not.mpr hzero)]
      refine (happend fun hrenewed hheld => ?_).bind fun m' hm' => Concludes.ok hm'
      obtain ⟨p, hp'⟩ := hheld
      have hfalse := hnone p
      rw [heq, hrenewed, hp'] at hfalse
      cases hfalse
    · have hki : k ≠ i := by
        rintro rfl
        exact hsame halike
      rw [if_pos hpos, if_neg hki]
      obtain ⟨hrange, hlt⟩ := hp.parsed.range hne
      have halike' := halike
      rw [heq, Bool.and_eq_true] at halike'
      obtain ⟨hframe, hremaps⟩ := h.toFrame.mapIndex hrange hlt (lt_of_alike halike) hpos
        hi.mine fun _ => halike'.2
      exact Concludes.ok (hmatched
        (h.of_entries hframe rfl fun k hzero => (hremaps.unmapped k hzero).1) rfl hremaps halike)

/-- An entry of the same kind that refers to what it is given. -/
structure PairEntry (e : CpEntry) (entry : Nat × Nat → CpEntry) : Prop where
  indices : ∀ p, PoolMerge.indices (entry p) = some p
  tag : ∀ p, (entry p).tag = e.tag

theorem appendEntry_pair {first second : Nat}
    (h : indices (entryAt scratch i) = some (first, second)) :
    ∃ entry, PairEntry (entryAt scratch i) entry ∧ ∀ n m, Wide.appendEntry scratch (n + 1) i m =
      Wide.appendPair (Wide.appendEntry scratch n) scratch i entry first second m := by
  unfold Wide.appendEntry
  cases hentry : entryAt scratch i with
  | nameAndType a b =>
    rw [hentry] at h
    cases h
    exact ⟨fun p => .nameAndType p.1 p.2, ⟨fun _ => rfl, fun _ => rfl⟩, fun _ _ => rfl⟩
  | field a b =>
    rw [hentry] at h
    cases h
    exact ⟨fun p => .field p.1 p.2, ⟨fun _ => rfl, fun _ => rfl⟩, fun _ _ => rfl⟩
  | method a b =>
    rw [hentry] at h
    cases h
    exact ⟨fun p => .method p.1 p.2, ⟨fun _ => rfl, fun _ => rfl⟩, fun _ _ => rfl⟩
  | interfaceMethod a b =>
    rw [hentry] at h
    cases h
    exact ⟨fun p => .interfaceMethod p.1 p.2, ⟨fun _ => rfl, fun _ => rfl⟩, fun _ _ => rfl⟩
  | _ => rw [hentry] at h; cases h

theorem appendEntry_flat (hparsed : Parsed scratch) (hnone : indices (entryAt scratch i) = none)
    (hne : entryAt scratch i ≠ .invalid) :
    ∃ rest, Padding rest ∧ (revert (entryAt scratch i) :: rest).length =
        width (entryAt scratch i) ∧
      ∀ n m, Wide.appendEntry scratch (n + 1) i m =
        m.append i (revert (entryAt scratch i) :: rest) := by
  unfold Wide.appendEntry
  cases hentry : entryAt scratch i with
  | double _ | long _ =>
    exact ⟨[.invalid], fun e he => List.mem_singleton.mp he, rfl, fun _ _ => rfl⟩
  | invalid => exact absurd hentry hne
  | unresolvedKlassInError name => exact absurd hentry (hparsed.class_ok i name)
  | nameAndType _ _ | field _ _ | method _ _ | interfaceMethod _ _ =>
    rw [hentry] at hnone
    cases hnone
  | _ => exact ⟨[], fun e he => absurd he List.not_mem_nil, rfl, fun _ _ => rfl⟩

theorem passedOver_eq_false (hp : Pools base scratch) {e : CpEntry} (he : entryAt scratch i = e)
    (hresolved : resolved e = false)
    (hkind : isUtf8 e = true ∨ isKlass e = true ∨ isNameAndType e = true) :
    passedOver base scratch i = false := by
  have hplain := hp.plain i
  unfold passedOver
  rw [he]
  cases e <;> first
    | (simp [isUtf8, isKlass, isNameAndType] at hkind; done)
    | (cases hresolved; done)
    | (cases hbase : entryAt base i <;> rw [hbase] at hplain <;>
        first | (cases hplain; done) | simp [isUnresolvedClassMismatch, isUnresolvedStringMismatch])

/-- What a turn locates is at one index, of one entry. -/
theorem width_of_referred {e : CpEntry}
    (h : isUtf8 e = true ∨ isKlass e = true ∨ isNameAndType e = true) : width e = 1 := by
  cases e <;> first | rfl | simp [isUtf8, isKlass, isNameAndType] at h

theorem locatable_of_referred (hp : Pools base scratch)
    (hkind : isUtf8 (entryAt scratch i) = true ∨ isKlass (entryAt scratch i) = true ∨
      isNameAndType (entryAt scratch i) = true)
    (hklass : isKlass (entryAt scratch i) = true → i ∈ brought base scratch t)
    (ht : resolved (entryAt scratch i) = true → t < scratch.length ∧ renewed scratch t = true) :
    Locatable base scratch t i := by
  cases hresolved : resolved (entryAt scratch i) with
  | true =>
    refine Or.inr ⟨hresolved, hklass ?_, ht hresolved⟩
    cases hentry : entryAt scratch i <;> rw [hentry] at hresolved <;>
      first | rfl | cases hresolved
  | false =>
    have hfloating := Grows.isFloating_of_referred hkind
    have hne : entryAt scratch i ≠ .invalid := by
      intro hinvalid
      rw [hinvalid] at hkind
      simp [isUtf8, isKlass, isNameAndType] at hkind
    have href : isRef (entryAt scratch i) = false := by
      cases hentry : entryAt scratch i <;> rw [hentry] at hkind <;>
        first | rfl | simp [isUtf8, isKlass, isNameAndType] at hkind
    refine Or.inl ⟨?_, hp.parsed.selfAlike hne hfloating,
      passedOver_eq_false hp rfl hresolved hkind, fun hclass => hklass ?_⟩
    · rw [renewed, hresolved, toResolved_of_not_isRef href]
      rfl
    · cases hentry : entryAt scratch i with
      | klass _ | unresolvedKlass _ => rfl
      | unresolvedKlassInError name => exact absurd hentry (hp.parsed.class_ok i name)
      | _ =>
        rw [hentry] at hclass href
        first | (cases href; done) | cases hclass

/-- What an entry refers to can be located, in the turn of a reference or of any entry. -/
theorem locatable_pair (hp : Pools base scratch) {first second : Nat}
    (hindices : indices (entryAt scratch i) = some (first, second))
    (hturn : isRef (entryAt scratch i) = true → i = t ∧ passedOver base scratch i = false) :
    Locatable base scratch t first ∧ Locatable base scratch t second := by
  have hutf8 : ∀ {j}, isUtf8 (entryAt scratch j) = true → Locatable base scratch t j := by
    intro j hj
    refine locatable_of_referred hp (Or.inl hj) (fun hklass => ?_) fun hresolved => ?_
    · cases hentry : entryAt scratch j <;> rw [hentry] at hj hklass <;>
        first | (cases hj; done) | cases hklass
    · rw [(indices_of_isUtf8 hj).2.2.1] at hresolved
      cases hresolved
  rcases isRef_of_indices hindices with href | hentry
  · obtain ⟨rfl, hpassed⟩ := hturn href
    obtain ⟨hklass, hpair⟩ := hp.parsed.ref href hindices
    have hne : entryAt scratch i ≠ .invalid := by
      intro hinvalid
      rw [hinvalid] at href
      cases href
    refine ⟨locatable_of_referred hp (Or.inr (Or.inl hklass))
      (fun _ => class_mem_brought hpassed href hindices) fun hresolved =>
        ⟨(hp.parsed.range hne).2, ?_⟩,
      locatable_of_referred hp (Or.inr (Or.inr hpair)) (fun hklass => ?_) fun hresolved => ?_⟩
    · rw [renewed, toResolved_eq _ _ hindices, href, hresolved]
      exact Bool.or_true _
    · cases hentry : entryAt scratch second <;> rw [hentry] at hpair hklass <;>
        first | (cases hpair; done) | cases hklass
    · rw [(level_of_isNameAndType hpair).2.1] at hresolved
      cases hresolved
  · exact ⟨hutf8 (hp.parsed.nameAndType hentry).1, hutf8 (hp.parsed.nameAndType hentry).2⟩

/-- A reference is only added in its own turn. -/
theorem Locatable.turn (hparsed : Parsed scratch) (hi : Locatable base scratch t i)
    (href : isRef (entryAt scratch i) = true) : i = t ∧ passedOver base scratch i = false := by
  obtain ⟨-, -, hpassed, hbrought⟩ | ⟨hresolved, -⟩ := hi
  · have hclass : isClassOrRef (entryAt scratch i) = true := by
      cases hentry : entryAt scratch i <;> rw [hentry] at href <;> first | rfl | cases href
    obtain ⟨-, hi | ⟨htref, second, hindices⟩⟩ := mem_brought (hbrought hclass)
    · exact ⟨hi, hpassed⟩
    · have hklass := (hparsed.ref htref hindices).1
      cases hentry : entryAt scratch i <;> rw [hentry] at href hklass <;>
        first | (cases href; done) | cases hklass
  · cases hentry : entryAt scratch i <;> rw [hentry] at href hresolved <;>
      first | (cases href; done) | cases hresolved

/-- What `append_entry` does with an entry that is not deeper than `n`. -/
def AppendSpec (base scratch : Entries) (capacity t n : Nat) : Prop :=
  ∀ {i r added m}, Books base scratch capacity t added r m → level (entryAt scratch i) < n →
    Locatable base scratch t i → r + again scratch i ≤ refsBefore scratch scratch.length →
    (renewed scratch i = false → ¬Held scratch m.entries i) →
    Concludes (Short base scratch capacity) (Wide.appendEntry scratch n i m) fun m' =>
      Located base scratch capacity t (r + again scratch i) i
        (m'.entries.length - width (entryAt scratch i)) m m' ∧ Appended scratch i m m'

/-- The new entry is equal once what it refers to is. -/
theorem alike_pair (hparsed : Parsed scratch) {first second x y : Nat}
    (hindices : indices (entryAt scratch i) = some (first, second))
    {entry : Nat × Nat → CpEntry} (hentry : PairEntry (entryAt scratch i) entry)
    (hclosed : Closed m.entries)
    (hfirst : alike depth (scratch.map revert) first m.entries x = true)
    (hsecond : alike depth (scratch.map revert) second m.entries y = true) :
    alike depth (scratch.map revert) i (m.entries ++ [entry (x, y)]) m.entries.length = true := by
  obtain ⟨hfirstlt, hsecondlt⟩ := hparsed.level_lt hindices
  obtain ⟨hfirst', hsecond'⟩ := hparsed.ne_invalid hindices
  have hle := level_le_two (entryAt scratch i)
  have hdeep : ∀ {j}, level (entryAt scratch j) < level (entryAt scratch i) →
      entryAt scratch j ≠ .invalid → Deep 2 (scratch.map revert) j :=
    fun hlt hne => (hparsed.deep (by omega) hne).revert
  have hsame : (entryAt (scratch.map revert) i).tag = (entry (x, y)).tag := by
    rw [hentry.tag, entryAt_map_revert]
    cases hi : entryAt scratch i <;> rw [hi] at hindices <;> first | rfl | cases hindices
  rw [alike_iff, entryAt_append_self, entryAt_map_revert, indices_revert, hentry.indices,
    ← entryAt_map_revert, hsame]
  refine Or.inr ⟨first, second, x, y, hindices, rfl, rfl, ?_, ?_⟩
  · rw [alike_append _ hclosed (lt_of_alike hfirst), ← alike_succ (hdeep hfirstlt hfirst')]
    exact hfirst
  · rw [alike_append _ hclosed (lt_of_alike hsecond), ← alike_succ (hdeep hsecondlt hsecond')]
    exact hsecond

/-- Neither the second part of an entry nor what it refers to is a class. -/
theorem not_renewed_of_second
    (h : isUtf8 (entryAt scratch i) = true ∨ isNameAndType (entryAt scratch i) = true) :
    renewed scratch i = false := by
  have href : isRef (entryAt scratch i) = false := by
    rcases h with h | h <;> cases hentry : entryAt scratch i <;> rw [hentry] at h <;>
      first | rfl | cases h
  rw [renewed, toResolved_of_not_isRef href, Bool.or_false]
  exact h.elim (fun h => (indices_of_isUtf8 h).2.2.1) fun h => (level_of_isNameAndType h).2.1

/-- What an entry refers to has been located. -/
structure PartsLocated (base scratch : Entries) (capacity t r i first second x y : Nat)
    (m m' : Merge) : Prop extends Effect scratch (parts scratch i) m m' where
  books : ∃ added', Books base scratch capacity t added' r m'
  shallow : ∃ new, m'.entries = m.entries ++ new ∧
    ∀ e ∈ new, level e < level (entryAt scratch i)
  firstAt : alike depth (scratch.map revert) first m'.entries x = true
  secondAt : alike depth (scratch.map revert) second m'.entries y = true
  unmapped : m'.map.findNewIndex first = 0 →
    alike depth (scratch.map revert) first m'.entries first = true
  shared : resolved (entryAt scratch first) = true →
    (m'.map.findNewIndex first = 0 ↔ m.map.findNewIndex first = 0 ∧ m.entries.length = first)

theorem appendPair_spec (hp : Pools base scratch) {n : Nat}
    (hspec : AppendSpec base scratch capacity t n)
    (h : Books base scratch capacity t added r m) {first second : Nat}
    (hindices : indices (entryAt scratch i) = some (first, second))
    (hlevel : level (entryAt scratch i) ≤ n)
    (hturn : isRef (entryAt scratch i) = true → i = t ∧ passedOver base scratch i = false)
    (hr : r + again scratch first ≤ refsBefore scratch scratch.length)
    {entry : Nat × Nat → CpEntry} {Q : Merge → Prop}
    (hthen : ∀ m' x y,
      PartsLocated base scratch capacity t (r + again scratch first) i first second x y m m' →
      Concludes (Short base scratch capacity) (m'.append i [entry (x, y)]) Q) :
    Concludes (Short base scratch capacity)
      (Wide.appendPair (Wide.appendEntry scratch n) scratch i entry first second m) Q := by
  obtain ⟨hfirst, hsecond⟩ := locatable_pair hp hindices hturn
  obtain ⟨hfirstlt, hsecondlt⟩ := hp.parsed.level_lt hindices
  obtain ⟨hfirstkind, hsecondkind⟩ := hp.parsed.indices hindices
  obtain ⟨hfirstsub, hsecondsub⟩ := hp.parsed.reached_subset hindices
  have hrenewed : renewed scratch second = false := not_renewed_of_second hsecondkind
  have hagain : again scratch second = 0 := by
    rw [again, (Bool.or_eq_false_iff.mp hrenewed).1]
    rfl
  unfold Wide.appendPair
  refine (locate_spec hp h hfirst fun hnot => ?_).bind ?_
  · rw [← width_of_referred (hfirstkind.imp id Or.inl)]
    exact (hspec h (by omega) hfirst hr hnot).weaken (fun _ => id) fun _ => And.left
  rintro ⟨x, m₁⟩ hlocated₁
  obtain ⟨added₁, h₁⟩ := hlocated₁.books
  obtain ⟨new₁, hnew₁, hlevel₁⟩ := hlocated₁.shallow
  refine (locate_spec hp h₁ hsecond fun hnot => ?_).bind ?_
  · rw [← width_of_referred (hsecondkind.imp id Or.inr)]
    exact (hspec h₁ (by omega) hsecond (by omega) hnot).weaken (fun _ => id) fun _ => And.left
  rintro ⟨y, m₂⟩ hlocated₂
  obtain ⟨added₂, h₂⟩ := hlocated₂.books
  obtain ⟨new₂, hnew₂, hlevel₂⟩ := hlocated₂.shallow
  rw [hagain, Nat.add_zero] at h₂
  have hkept : ∀ {z}, alike depth (scratch.map revert) first m₁.entries z = true →
      alike depth (scratch.map revert) first m₂.entries z = true := by
    intro z hz
    rw [hnew₂, alike_append new₂ h₁.closed (lt_of_alike hz), hz]
  have hy := hlocated₂.located
  have hx := hkept hlocated₁.located
  have hframe : Frame base scratch capacity { m₂ with packed := x :: y :: m₂.packed } := by
    refine ⟨h₂.grown, h₂.length, h₂.fits, h₂.pos, h₂.first, h₂.plain, h₂.closed, h₂.mapped, h₂.map,
      h₂.mine, h₂.values, fun j hj => ?_⟩
    rcases List.mem_cons.mp hj with rfl | hj
    · exact lt_of_alike hx
    · rcases List.mem_cons.mp hj with rfl | hj
      · exact lt_of_alike hy
      · exact h₂.packed j hj
  have heffect : Effect scratch (parts scratch i) m m₂ :=
    (hlocated₁.mono hfirstsub).trans (hlocated₂.mono hsecondsub) h₁.closed
  have hzero : ∀ k : Nat, m₂.map.findNewIndex k = 0 → m₁.map.findNewIndex k = 0 := fun k hk =>
    by_contra fun hne => hne ((hlocated₂.keeps k hne).symm.trans hk)
  refine hthen _ x y ⟨⟨heffect.grown, heffect.fresh, heffect.only, heffect.keeps⟩,
    ⟨added₂, h₂.of_entries hframe rfl fun _ => id⟩,
    ⟨new₁ ++ new₂, by rw [hnew₂, hnew₁, List.append_assoc], fun e he => ?_⟩, hx, hy,
    fun hfirst' => hkept (hlocated₁.unmapped (hzero first hfirst')), fun hresolved => ?_⟩
  · rcases List.mem_append.mp he with he | he
    · exact lt_of_le_of_lt (hlevel₁ e he) hfirstlt
    · exact lt_of_le_of_lt (hlevel₂ e he) hsecondlt
  · rw [← hlocated₁.shared hresolved]
    refine ⟨hzero first, fun hfirst' => by_contra fun hne => ?_⟩
    refine (hlocated₂.only first hne).elim (fun h => h hfirst') fun hmem => ?_
    have hfalse := not_renewed_of_reached hp.parsed.toBuilt hrenewed hmem
    rw [renewed, hresolved] at hfalse
    cases hfalse

theorem resolved_facts {e : CpEntry} (h : resolved e = true) :
    isFloating e = false ∧ width e = 1 := by
  cases e <;> first | exact ⟨rfl, rfl⟩ | cases h

theorem not_resolved_of_indices {e : CpEntry} {pair : Nat × Nat} (h : indices e = some pair) :
    resolved e = false ∧ width e = 1 := by
  cases e <;> first | exact ⟨rfl, rfl⟩ | cases h

/-- A new entry that refers to no others is equal to its constant. -/
theorem alike_flat (hnone : indices (entryAt scratch i) = none) (hself : SelfAlike scratch i)
    (rest : Entries) :
    alike depth (scratch.map revert) i (m.entries ++ revert (entryAt scratch i) :: rest)
      m.entries.length = true := by
  obtain ⟨-, -, hdirect⟩ | ⟨_, _, _, _, hsome, -⟩ := alike_iff.mp hself
  · rw [entryAt_map_revert] at hdirect
    rw [alike_iff, entryAt_append_self, entryAt_map_revert, indices_revert]
    exact Or.inl ⟨hnone, hnone, hdirect⟩
  · rw [entryAt_map_revert, indices_revert, hnone] at hsome
    cases hsome

theorem not_held_of_grown (h : Frame base scratch capacity m)
    (hnot : ¬Held scratch m.entries i) {new : Entries} (hentries : m'.entries = m.entries ++ new)
    (hlevel : ∀ e ∈ new, level e < level (entryAt scratch i)) : ¬Held scratch m'.entries i := by
  rintro ⟨k, hk⟩
  by_cases hlt : k < m.entries.length
  · rw [hentries, alike_append new h.closed hlt] at hk
    exact hnot ⟨k, hk⟩
  · have hrange := lt_of_alike hk
    have hkind := (sameKind_of_alike hk).level
    rw [entryAt_map_revert, level_revert, entryAt_eq hrange] at hkind
    have hmem : m'.entries[k] ∈ new := by
      simp only [hentries]
      rw [List.getElem_append_right (not_lt.mp hlt)]
      exact List.getElem_mem _
    exact absurd (hlevel _ hmem) (by omega)

theorem appendEntry_spec (hp : Pools base scratch) (n : Nat) :
    AppendSpec base scratch capacity t n := by
  induction n with
  | zero => exact fun _ hlevel => absurd hlevel (Nat.not_lt_zero _)
  | succ n ih =>
    intro i r added m h hlevel hi hr hnot
    have hne := hi.ne_invalid
    cases hindices : indices (entryAt scratch i) with
    | none =>
      obtain ⟨rest, hrest, hwidth, happend⟩ := appendEntry_flat hp.parsed hindices hne
      have hgrown : ∀ e ∈ revert (entryAt scratch i) :: rest,
          level e ≤ level (entryAt scratch i) := by
        intro e he
        rcases List.mem_cons.mp he with rfl | he
        · rw [level_revert]
        · rw [hrest e he]
          exact Nat.zero_le _
      have hself : SelfAlike scratch i := by
        obtain ⟨-, hself, -⟩ | ⟨hresolved, -⟩ := hi
        · exact hself
        · exact hp.parsed.selfAlike hne (resolved_facts hresolved).1
      have hconcludes : Concludes (Short base scratch capacity)
          (m.append i (revert (entryAt scratch i) :: rest)) fun m' =>
            (∃ added', Books base scratch capacity t added' (r + again scratch i) m') ∧
              m'.entries = m.entries ++ revert (entryAt scratch i) :: rest ∧
              Remaps i m.entries.length m.map m'.map := by
        obtain ⟨hrenewed, -, hpassed, hbrought⟩ | ⟨hresolved, hbrought, ht, hrenewed⟩ := hi
        · have hagain : again scratch i = 0 := by
            rw [again, (Bool.or_eq_false_iff.mp hrenewed).1]
            rfl
          rw [hagain]
          exact h.append_first hp hrenewed hself hpassed (hnot hrenewed) hbrought
            (resolved_revert _) (by simp [indices_revert, hindices]) hrest hwidth
            (alike_flat hindices hself rest)
        · have hagain : again scratch i = 1 := by
            rw [again, hresolved]
            rfl
          obtain rfl : rest = [] := by
            rw [(resolved_facts hresolved).2, List.length_cons] at hwidth
            exact List.length_eq_zero_iff.mp (Nat.succ_injective hwidth)
          rw [hagain] at hr ⊢
          exact (h.append_again hp ht hrenewed hbrought hr (resolved_revert _)
            ((indices_revert _).trans hindices) hne (alike_flat hindices hself [])).weaken
            (fun _ => id) fun m' hm' => ⟨⟨added, hm'.1⟩, hm'.2⟩
      rw [happend]
      refine (hconcludes.and (m.append_packed ..)).weaken (fun _ => id) ?_
      rintro m' ⟨⟨hbooks, hentries, hremaps⟩, hpacked⟩
      have hat := alike_flat (m := m) hindices hself rest
      rw [← hentries] at hat
      have happended : Appended scratch i m m' := .of_flat hrest hwidth hentries hremaps hpacked
        (fun _ => hat) fun hnot => absurd hself hnot
      refine ⟨⟨happended.toEffect, hbooks, ⟨_, hentries, hgrown⟩, happended.located hself,
        hremaps.alike_self hat, fun _ => ⟨fun hzero => ?_, fun hzero => ?_⟩⟩, happended⟩
      · obtain ⟨hbefore, hself⟩ := hremaps.unmapped i hzero
        exact ⟨hbefore, (hself rfl).symm⟩
      · rw [hremaps.self hzero.2.symm, hzero.1]
    | some pair =>
      obtain ⟨first, second⟩ := pair
      obtain ⟨entry, hentry, happend⟩ := appendEntry_pair hindices
      obtain ⟨hresolved, hwidth⟩ := not_resolved_of_indices hindices
      have hkind := fun p => sameKind_of_tag (hentry.tag p)
      have hagain : again scratch i = 0 := by
        rw [again, hresolved]
        rfl
      obtain ⟨hrenewed, hself, hpassed, hbrought⟩ : renewed scratch i = false ∧
          SelfAlike scratch i ∧ passedOver base scratch i = false ∧
          (isClassOrRef (entryAt scratch i) = true → i ∈ brought base scratch t) :=
        hi.resolve_right fun hright => by rw [hresolved] at hright; cases hright.1
      have hfirst : again scratch first = 0 := by
        rw [again, (Bool.or_eq_false_iff.mp (hp.parsed.not_renewed hindices hrenewed).1).1]
        rfl
      rw [happend]
      refine appendPair_spec hp ih h hindices (by omega)
        (fun href => hi.turn hp.parsed href) (by omega) ?_
      intro m₁ x y hparts
      obtain ⟨added₁, h₁⟩ := hparts.books
      obtain ⟨new, hnew, hlevel'⟩ := hparts.shallow
      rw [hfirst] at h₁
      have halike :=
        alike_pair hp.parsed hindices hentry h₁.closed hparts.firstAt hparts.secondAt
      refine (h₁.append_first hp hrenewed hself hpassed
        (not_held_of_grown h.toFrame (hnot hrenewed) hnew hlevel') hbrought
        ((hkind _).resolved.trans hresolved) (fun a b hab => ?_)
        (fun _ he => absurd he List.not_mem_nil) hwidth.symm halike).weaken (fun _ => id) ?_
      · rw [hentry.indices] at hab
        cases hab
        exact ⟨lt_of_alike hparts.firstAt, lt_of_alike hparts.secondAt⟩
      · rintro m' ⟨hbooks, hentries, hremaps⟩
        rw [hagain]
        rw [← hentries] at halike
        have happended : Appended scratch i m m' := .of_pair hp.parsed.toBuilt hindices
          h₁.closed hparts.toEffect hwidth hentries hremaps halike
        refine ⟨⟨happended.toEffect, hbooks, ⟨new ++ [entry (x, y)],
          by rw [hentries, hnew, List.append_assoc], fun e he => ?_⟩, happended.located hself,
          hremaps.alike_self halike, fun htrue => ?_⟩, happended⟩
        · rcases List.mem_append.mp he with he | he
          · exact le_of_lt (hlevel' e he)
          · rw [List.mem_singleton.mp he, (hkind _).level]
        · rw [hresolved] at htrue
          cases htrue

/-! ## The turns -/

theorem not_alike_flat (hnone : indices (entryAt scratch i) = none)
    (hnot : ¬SelfAlike scratch i) (rest : Entries) (k : Nat) :
    alike depth (scratch.map revert) k (m.entries ++ revert (entryAt scratch i) :: rest)
      m.entries.length = false := by
  refine Bool.eq_false_iff.mpr fun halike => hnot ?_
  rw [alike_iff, entryAt_append_self, indices_revert] at halike
  obtain ⟨-, -, hdirect⟩ | ⟨_, _, _, _, -, hsome, -⟩ := halike
  · rw [SelfAlike, alike_iff, entryAt_map_revert, indices_revert]
    exact Or.inl ⟨hnone, hnone, directAlike_trans (directAlike_symm hdirect) hdirect⟩
  · rw [hnone] at hsome
    cases hsome

theorem refsBefore_next (hgap : ∀ j, t < j → j < t' → entryAt scratch j = .invalid)
    (hlt : t < t') :
    refsBefore scratch t' = refsBefore scratch t + if toResolved scratch t then 1 else 0 := by
  induction t', hlt using Nat.le_induction with
  | base => exact sum_range_succ ..
  | succ n hle ih =>
    have hinvalid : toResolved scratch n = false := by
      rw [toResolved, hgap n hle (Nat.lt_succ_self n)]
      rfl
    rw [← ih fun j hj hj' => hgap j hj (Nat.lt_succ_of_lt hj'), refsBefore, sum_range_succ,
      hinvalid]
    rfl

theorem refsBefore_mono (hle : t ≤ t') : refsBefore scratch t ≤ refsBefore scratch t' :=
  sum_le_sum_of_subset (range_mono hle)

/-- With a reference the merged pool has its class. -/
theorem Held.of_brought (hparsed : Parsed scratch) (h : Held scratch m.entries t) :
    ∀ x ∈ brought base scratch t, Held scratch m.entries x := by
  intro x hx
  obtain ⟨-, rfl | ⟨-, second, hindices⟩⟩ := mem_brought hx
  · exact h
  · exact (h.indices hparsed.toBuilt hindices).1

/-- The turn of what can be found and is there now. -/
theorem Books.close_held (hparsed : Parsed scratch)
    (h : Books base scratch capacity t added r m) (hrenewed : renewed scratch t = false)
    (hgap : ∀ j, t < j → j < t' → entryAt scratch j = .invalid) (hle : t ≤ t')
    (hheld : Held scratch m.entries t)
    (hturned : m.map.findNewIndex t = 0 →
      alike depth (scratch.map revert) t m.entries t = true) :
    Books base scratch capacity t' added r m :=
  h.close hgap hle (fun hcounted => h.found t hrenewed hcounted hheld)
    (fun x hx _ => hheld.of_brought hparsed x hx) fun x hx hkind _ => by
      obtain ⟨-, rfl | ⟨-, second, hindices⟩⟩ := mem_brought hx
      · exact hturned
      · rcases hkind with rfl | htrue
        · exact hturned
        · rw [(hparsed.not_renewed hindices hrenewed).1] at htrue
          cases htrue

theorem refs_of_not_renewed (hrenewed : renewed scratch t = false)
    (hgap : ∀ j, t < j → j < t' → entryAt scratch j = .invalid) (hlt : t < t') :
    refsBefore scratch t' = refsBefore scratch t := by
  rw [refsBefore_next hgap hlt, (Bool.or_eq_false_iff.mp hrenewed).2]
  rfl

/-- An entry is counted when it is renewed or differs from itself. -/
theorem counted_of_own (hp : Pools base scratch) (hne : entryAt scratch t ≠ .invalid)
    (hpassed : passedOver base scratch t = false)
    (hown : renewed scratch t = true ∨ ¬SelfAlike scratch t) : Counted base scratch t := by
  cases hrenewed : renewed scratch t with
  | true =>
    refine ⟨hne, hpassed, fun old _ => Bool.eq_false_iff.mpr fun halike => ?_, Or.inl hrenewed⟩
    rw [renewed_of_alike halike, renewed_eq_false hp.plain] at hrenewed
    cases hrenewed
  | false =>
    have hnot : ∀ cp k, alike depth scratch t cp k ≠ true := fun cp k halike =>
      hown.resolve_left (by simp [hrenewed])
        (selfAlike_of_plain hp.parsed.toBuilt hrenewed halike)
    exact ⟨hne, hpassed, fun old _ => Bool.eq_false_iff.mpr (hnot _ _),
      Or.inr ⟨fun j _ _ => Bool.eq_false_iff.mpr fun halike => hnot _ _ (alike_symm halike),
        fun j _ ⟨x, _, halike⟩ => absurd (alike_symm halike) (hnot _ _)⟩⟩

/-- The class of the reference at `i` is mapped unless its copy is at its own index. -/
def ClassMapped (scratch : Entries) (i : Nat) (m m' : Merge) : Prop :=
  ∀ klass second : Nat, indices (entryAt scratch i) = some (klass, second) →
    toResolved scratch i = true →
      (m'.map.findNewIndex klass = 0 ↔ m.map.findNewIndex klass = 0 ∧ m.entries.length = klass)

/-- The turn of an entry that no entry of the merged pool is equal to. -/
theorem appendEntry_own (hp : Pools base scratch)
    (h : Books base scratch capacity t added (refsBefore scratch t) m)
    (hne : entryAt scratch t ≠ .invalid) (hpassed : passedOver base scratch t = false)
    (hown : renewed scratch t = true ∨ ¬SelfAlike scratch t)
    (hgap : ∀ j, t < j → j < t' → entryAt scratch j = .invalid) (hlt : t < t') :
    Concludes (Short base scratch capacity) (Wide.appendEntry scratch depth t m) fun m' =>
      (∃ added', Books base scratch capacity t' added' (refsBefore scratch t') m') ∧
        Appended scratch t m m' ∧ ClassMapped scratch t m m' := by
  have hcounted := counted_of_own hp hne hpassed hown
  cases hindices : indices (entryAt scratch t) with
  | none =>
    obtain ⟨rest, hrest, hwidth, happend⟩ := appendEntry_flat hp.parsed hindices hne
    have hto : toResolved scratch t = false := by rw [toResolved, hindices]
    rw [happend, refsBefore_next hgap hlt, hto]
    refine ((h.append_own hp hcounted hown hgap hlt (fun x hx hxt => ?_) (resolved_revert _)
      (by simp [indices_revert, hindices]) hrest hwidth
      (fun hself => alike_flat hindices hself rest)
      fun hself => not_alike_flat hindices hself rest).and (m.append_packed ..)).weaken
      (fun _ => id) ?_
    · obtain ⟨-, rfl | ⟨-, second, hsome⟩⟩ := mem_brought hx
      · exact absurd rfl hxt
      · rw [hindices] at hsome
        cases hsome
    · rintro m' ⟨⟨hbooks, hentries, hremaps⟩, hpacked⟩
      refine ⟨⟨_, hbooks⟩, .of_flat hrest hwidth hentries hremaps hpacked (fun hself => ?_)
        (fun hnot => ?_), fun klass second hsome => ?_⟩
      · rw [hentries]
        exact alike_flat hindices hself rest
      · rw [hentries]
        exact not_alike_flat hindices hnot rest
      · rw [hindices] at hsome
        cases hsome
  | some pair =>
    obtain ⟨first, second⟩ := pair
    obtain ⟨entry, hentry, happend⟩ := appendEntry_pair hindices
    obtain ⟨hresolved, hwidth⟩ := not_resolved_of_indices hindices
    have hkind := fun p => sameKind_of_tag (hentry.tag p)
    have hflat : isFloating (entryAt scratch t) = false := by
      cases hentry' : entryAt scratch t <;> rw [hentry'] at hindices <;>
        first | rfl | cases hindices
    have hself := hp.parsed.selfAlike hne hflat
    have hto : toResolved scratch t = true := by
      have hrenewed := hown.resolve_right (not_not.mpr hself)
      rwa [renewed, hresolved, Bool.false_or] at hrenewed
    have hfirst : resolved (entryAt scratch first) = true := by
      rw [toResolved_eq _ _ hindices, Bool.and_eq_true] at hto
      exact hto.2
    have hagain : again scratch first = 1 := by
      rw [again, hfirst]
      rfl
    have hnext := refsBefore_next hgap hlt
    rw [hto, if_pos rfl] at hnext
    have htotal : refsBefore scratch t + 1 ≤ refsBefore scratch scratch.length := by
      have hstep : refsBefore scratch (t + 1) = refsBefore scratch t + 1 := by
        rw [refsBefore, sum_range_succ, hto]
        rfl
      rw [← hstep]
      exact refsBefore_mono (hp.parsed.range hne).2
    rw [happend]
    refine appendPair_spec hp (appendEntry_spec hp 2) h hindices (level_le_two _)
      (fun _ => ⟨rfl, hpassed⟩) (by rw [hagain]; exact htotal) ?_
    intro m₁ x y hparts
    obtain ⟨added₁, h₁⟩ := hparts.books
    have halike := alike_pair hp.parsed hindices hentry h₁.closed hparts.firstAt hparts.secondAt
    rw [hagain, ← hnext] at h₁
    refine (h₁.append_own hp hcounted hown hgap hlt (fun z hz hzt => ?_)
      ((hkind _).resolved.trans hresolved) (fun a b hab => ?_)
      (fun _ he => absurd he List.not_mem_nil) hwidth.symm (fun _ => halike)
      fun hnot => absurd hself hnot).weaken (fun _ => id) ?_
    · obtain ⟨-, rfl | ⟨-, second', hsome⟩⟩ := mem_brought hz
      · exact absurd rfl hzt
      · rw [hindices] at hsome
        cases hsome
        exact ⟨⟨x, hparts.firstAt⟩, hparts.unmapped⟩
    · rw [hentry.indices] at hab
      cases hab
      exact ⟨lt_of_alike hparts.firstAt, lt_of_alike hparts.secondAt⟩
    · rintro m' ⟨hbooks, hentries, hremaps⟩
      rw [← hentries] at halike
      refine ⟨⟨_, hbooks⟩, .of_pair hp.parsed.toBuilt hindices h₁.closed hparts.toEffect hwidth
        hentries hremaps halike, fun klass second' hsome _ => ?_⟩
      rw [hindices] at hsome
      cases hsome
      have hklass : first ≠ t := by
        rintro rfl
        exact hp.parsed.not_mem_parts (hp.parsed.reached_subset hindices |>.1 (by simp [reached]))
      rw [← hparts.shared hfirst]
      refine ⟨fun hzero => (hremaps.unmapped first hzero).1, fun hzero => by_contra fun hne => ?_⟩
      exact (hremaps.only first hne).elim (fun h => h hzero) hklass

end Locating

end HotSpot.PoolMerge
