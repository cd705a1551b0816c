import HotSpot.Prims.MergeBooks

/-! # Where a merge puts what it adds

Which constants have arrived in the merged pool before a turn, and from that, at which index a
turn puts an entry of its own and whether it is recorded there: a resolved class that an earlier
reference has mapped is added again, and nothing points to the copy.
-/

namespace HotSpot.PoolMerge

open Finset

/-! ## What comes with an entry -/

/-- What an entry refers to, and what that refers to. -/
def parts (scratch : Entries) (i : Nat) : List Nat :=
  match indices (entryAt scratch i) with
  | some (first, second) =>
    first :: second ::
      match indices (entryAt scratch second) with
      | some (name, signature) => [name, signature]
      | none => []
  | none => []

/-- What the merged pool has once it has the entry. -/
def reached (scratch : Entries) (i : Nat) : List Nat := i :: parts scratch i

section Parts

variable {base scratch merged : Entries} {i x first second : Nat}

theorem parts_of_flat (hnone : indices (entryAt scratch i) = none) : parts scratch i = [] := by
  rw [parts, hnone]

theorem mem_parts (h : x ∈ parts scratch i) :
    ∃ first second, indices (entryAt scratch i) = some (first, second) ∧
      (x = first ∨ x = second ∨ ∃ name signature,
        indices (entryAt scratch second) = some (name, signature) ∧
          (x = name ∨ x = signature)) := by
  unfold parts at h
  split at h
  next first second hindices =>
    refine ⟨first, second, hindices, ?_⟩
    rcases List.mem_cons.mp h with rfl | h
    · exact Or.inl rfl
    rcases List.mem_cons.mp h with rfl | h
    · exact Or.inr (Or.inl rfl)
    split at h
    next name signature hindices' =>
      refine Or.inr (Or.inr ⟨name, signature, hindices', ?_⟩)
      simpa using h
    next => cases h
  next => cases h

theorem Built.mem_parts (h : Built scratch) (hx : x ∈ parts scratch i) :
    level (entryAt scratch x) < level (entryAt scratch i) ∧
      (isUtf8 (entryAt scratch x) = true ∨ isKlass (entryAt scratch x) = true ∨
        isNameAndType (entryAt scratch x) = true) := by
  obtain ⟨first, second, hindices, hx⟩ := PoolMerge.mem_parts hx
  obtain ⟨hfirst, hsecond⟩ := h.level_lt hindices
  obtain ⟨hfirst', hsecond'⟩ := h.indices hindices
  rcases hx with rfl | rfl | ⟨name, signature, hindices', hx⟩
  · exact ⟨hfirst, hfirst'.imp_right Or.inl⟩
  · exact ⟨hsecond, hsecond'.imp_right Or.inr⟩
  · obtain ⟨hname, hsignature⟩ := h.level_lt hindices'
    obtain ⟨hname', hsignature'⟩ := h.indices hindices'
    rcases hx with rfl | rfl
    · exact ⟨lt_trans hname hsecond, hname'.imp_right Or.inl⟩
    · exact ⟨lt_trans hsignature hsecond, hsignature'.imp_right Or.inr⟩

theorem Built.not_mem_parts (h : Built scratch) : i ∉ parts scratch i := fun hi =>
  absurd (h.mem_parts hi).1 (lt_irrefl _)

/-- The parts of a reference or of a name and type. -/
theorem Built.reached_subset (h : Built scratch)
    (hindices : PoolMerge.indices (entryAt scratch i) = some (first, second)) :
    reached scratch first ⊆ parts scratch i ∧ reached scratch second ⊆ parts scratch i := by
  obtain ⟨hfirst, hsecond⟩ := h.indices hindices
  have hflat : parts scratch first = [] := parts_of_flat <| hfirst.elim
    (fun hutf8 => (indices_of_isUtf8 hutf8).1) fun hklass => (indices_of_isKlass hklass).1
  rw [reached, reached, hflat, parts, hindices]
  refine ⟨by simp, ?_⟩
  cases hindices' : PoolMerge.indices (entryAt scratch second) with
  | none => simp [parts_of_flat hindices']
  | some pair =>
    obtain ⟨name, signature⟩ := pair
    have hutf8 : isUtf8 (entryAt scratch signature) = true := by
      rcases isRef_of_indices hindices' with href | hentry
      · rcases hsecond with hkind | hkind <;> cases hentry : entryAt scratch second <;>
          rw [hentry] at href hkind <;> first | (cases href; done) | cases hkind
      · exact (h.nameAndType hentry).2
    simp [parts, hindices', (indices_of_isUtf8 hutf8).1]

/-- Only the class of a reference is resolved. -/
theorem Built.resolved_part (h : Built scratch) (hx : x ∈ parts scratch i)
    (hresolved : resolved (entryAt scratch x) = true) : toResolved scratch i = true ∧
      ∃ second, PoolMerge.indices (entryAt scratch i) = some (x, second) := by
  have hkind : isKlass (entryAt scratch x) = true := by
    cases hentry : entryAt scratch x <;> rw [hentry] at hresolved <;>
      first | rfl | cases hresolved
  have hnot : ∀ {j}, isUtf8 (entryAt scratch j) = true ∨ isNameAndType (entryAt scratch j) = true →
      x ≠ j := by
    rintro j hj rfl
    cases hentry : entryAt scratch x <;> rw [hentry] at hj hkind <;>
      first | (cases hkind; done) | simp [isUtf8, isNameAndType] at hj
  obtain ⟨first, second, hindices, hx⟩ := PoolMerge.mem_parts hx
  obtain rfl : x = first := by
    rcases hx with hx | rfl | ⟨name, signature, hindices', hx⟩
    · exact hx
    · exact absurd rfl (hnot (h.indices hindices).2)
    · rcases isRef_of_indices hindices' with href | hentry
      · obtain ⟨-, hsecond⟩ := h.indices hindices
        rcases hsecond with hkind' | hkind' <;> cases hentry : entryAt scratch second <;>
          rw [hentry] at href hkind' <;> first | (cases href; done) | cases hkind'
      · obtain ⟨hname, hsignature⟩ := h.nameAndType hentry
        rcases hx with rfl | rfl
        · exact absurd rfl (hnot (Or.inl hname))
        · exact absurd rfl (hnot (Or.inl hsignature))
  refine ⟨?_, second, hindices⟩
  rw [toResolved_eq _ _ hindices, hresolved, Bool.and_true]
  refine (isRef_of_indices hindices).resolve_right fun hentry => ?_
  exact absurd rfl (hnot (Or.inl (h.nameAndType hentry).1))

/-- With an entry the merged pool has its parts. -/
theorem Held.indices (hbuilt : Built scratch) (h : Held scratch merged i)
    (hindices : PoolMerge.indices (entryAt scratch i) = some (first, second)) :
    Held scratch merged first ∧ Held scratch merged second := by
  obtain ⟨k, hk⟩ := h
  obtain ⟨hnone, -⟩ | ⟨a, b, a', b', hsome, -, -, hfirst, hsecond⟩ := alike_iff.mp hk
  · rw [entryAt_map_revert, indices_revert, hindices] at hnone
    cases hnone
  · rw [entryAt_map_revert, indices_revert, hindices] at hsome
    cases hsome
    obtain ⟨hfirstlt, hsecondlt⟩ := hbuilt.level_lt hindices
    obtain ⟨hfirst', hsecond'⟩ := hbuilt.ne_invalid hindices
    have hle := level_le_two (entryAt scratch i)
    exact ⟨⟨a', (alike_succ (hbuilt.deep (by omega) hfirst').revert a').trans hfirst⟩,
      ⟨b', (alike_succ (hbuilt.deep (by omega) hsecond').revert b').trans hsecond⟩⟩

theorem Held.reached (hbuilt : Built scratch) (h : Held scratch merged i)
    (hx : x ∈ reached scratch i) : Held scratch merged x := by
  rcases List.mem_cons.mp hx with rfl | hx
  · exact h
  obtain ⟨first, second, hindices, hx⟩ := mem_parts hx
  obtain ⟨hfirst, hsecond⟩ := h.indices hbuilt hindices
  rcases hx with rfl | rfl | ⟨name, signature, hindices', hx⟩
  · exact hfirst
  · exact hsecond
  · obtain ⟨hname, hsignature⟩ := hsecond.indices hbuilt hindices'
    rcases hx with rfl | rfl
    · exact hname
    · exact hsignature

/-- What refers to something equals itself. -/
theorem selfAlike_of_reached (hbuilt : Built scratch) {cp : Entries} {k : Nat}
    (hx : x ∈ reached scratch i) (halike : alike depth (scratch.map revert) x cp k = true) :
    SelfAlike scratch i := by
  rcases List.mem_cons.mp hx with rfl | hx
  · exact selfAlike_of_alike halike
  obtain ⟨first, second, hindices, -⟩ := mem_parts hx
  refine hbuilt.selfAlike (fun hinvalid => ?_) ?_
  · rw [hinvalid] at hindices
    cases hindices
  · cases hentry : entryAt scratch i <;> rw [hentry] at hindices <;>
      first | rfl | cases hindices

theorem not_renewed_of_reached (hbuilt : Built scratch) (hi : renewed scratch i = false)
    (hx : x ∈ reached scratch i) : renewed scratch x = false := by
  rcases List.mem_cons.mp hx with rfl | hx
  · exact hi
  cases hresolved : resolved (entryAt scratch x) with
  | true =>
    rw [renewed, (hbuilt.resolved_part hx hresolved).1, Bool.or_true] at hi
    cases hi
  | false =>
    have hlevel := (hbuilt.mem_parts hx).1
    have hle := level_le_two (entryAt scratch i)
    rw [renewed, hresolved, toResolved_of_not_isRef (not_isRef_of_level_lt (by omega))]
    rfl

end Parts

/-! ## Places -/

/-- Before the turn of `t` the merged pool has the constant: the old pool has it, or it has come
with an earlier entry. -/
def There (base scratch : Entries) (t k : Nat) : Prop :=
  (∃ old < base.length, alike depth (scratch.map revert) k base old = true) ∨
    ∃ j < t, passedOver base scratch j = false ∧
      ∃ x ∈ reached scratch j, alike depth (scratch.map revert) x (scratch.map revert) k = true

instance (base scratch : Entries) (t k : Nat) : Decidable (There base scratch t k) := by
  delta There
  infer_instance

/-- The entries of the merged pool before the turn of `t`. -/
def slotsBefore (base scratch : Entries) (t : Nat) : Nat :=
  base.length + (∑ k ∈ range scratch.length,
    if Counted base scratch k ∧ (k < t ∨ renewed scratch k = false ∧ There base scratch t k) then
      width (entryAt scratch k) else 0) + refsBefore scratch t

/-- Where the turn of `t` puts its own entry, which is the last that it adds. -/
def place (base scratch : Entries) (t : Nat) : Nat :=
  slotsBefore base scratch (t + width (entryAt scratch t)) - width (entryAt scratch t)

/-- Before the turn of `t` a reference has mapped its resolved class: the copy that it added is not
at the index of the class. -/
def MappedBefore (base scratch : Entries) (t k : Nat) : Prop :=
  ∃ j < t, toResolved scratch j = true ∧
    (indices (entryAt scratch j)).map Prod.fst = some k ∧ slotsBefore base scratch j ≠ k

instance (base scratch : Entries) (t k : Nat) : Decidable (MappedBefore base scratch t k) := by
  delta MappedBefore
  infer_instance

/-- The turn of `t` adds its own entry and records where. -/
def Placed (base scratch : Entries) (t : Nat) : Prop :=
  entryAt scratch t ≠ .invalid ∧ passedOver base scratch t = false ∧
    (renewed scratch t = true ∨ ¬There base scratch t t) ∧ ¬MappedBefore base scratch t t

instance (base scratch : Entries) (t : Nat) : Decidable (Placed base scratch t) := by
  delta Placed
  infer_instance

/-- What is recorded has two bytes: what the turn of `t` adds, and what it finds in the old
pool. -/
structure TwoBytes (base scratch : Entries) (t : Nat) : Prop where
  placed : Placed base scratch t → place base scratch t < 2 ^ 16
  found : passedOver base scratch t = false → ∀ k, alike depth scratch t base k = true →
    ∃ k' < 2 ^ 16, alike depth scratch t base k' = true

section Arriving

variable {base scratch : Entries} {t t' k : Nat}

theorem There.mono (h : There base scratch t k) (hle : t ≤ t') : There base scratch t' k :=
  h.imp_right fun ⟨j, hj, hpassed, hx⟩ => ⟨j, lt_of_lt_of_le hj hle, hpassed, hx⟩

theorem There.of_reached {x : Nat} (hlt : t < t') (hpassed : passedOver base scratch t = false)
    (hx : x ∈ reached scratch t)
    (halike : alike depth (scratch.map revert) x (scratch.map revert) k = true) :
    There base scratch t' k := Or.inr ⟨t, hlt, hpassed, x, hx, halike⟩

theorem MappedBefore.next (hgap : ∀ j, t < j → j < t' → entryAt scratch j = .invalid)
    (hlt : t < t') : MappedBefore base scratch t' k ↔ MappedBefore base scratch t k ∨
      toResolved scratch t = true ∧ (indices (entryAt scratch t)).map Prod.fst = some k ∧
        slotsBefore base scratch t ≠ k := by
  constructor
  · rintro ⟨j, hj, href, hmapped⟩
    rcases lt_trichotomy j t with hjt | rfl | hjt
    · exact Or.inl ⟨j, hjt, href, hmapped⟩
    · exact Or.inr ⟨href, hmapped⟩
    · rw [toResolved, hgap j hjt hj] at href
      cases href
  · rintro (⟨j, hj, hmapped⟩ | hmapped)
    · exact ⟨j, lt_trans hj hlt, hmapped⟩
    · exact ⟨t, hlt, hmapped⟩

end Arriving

/-! ## What a part of the merge does -/

/-- A part of a merge that has to do with the constants in `R` only. -/
structure Effect (scratch : Entries) (R : List Nat) (m m' : Merge) : Prop where
  grown : ∃ new, m'.entries = m.entries ++ new
  fresh : ∀ k p, m.entries.length ≤ p → alike depth (scratch.map revert) k m'.entries p = true →
    ∃ x ∈ R, alike depth (scratch.map revert) x (scratch.map revert) k = true
  only : ∀ k : Nat, m'.map.findNewIndex k ≠ 0 → m.map.findNewIndex k ≠ 0 ∨ k ∈ R
  keeps : ∀ k : Nat, m.map.findNewIndex k ≠ 0 → m'.map.findNewIndex k = m.map.findNewIndex k

namespace Effect

variable {scratch : Entries} {R R' : List Nat} {m m' m'' : Merge} {i k : Nat}

theorem of_entries (hentries : m'.entries = m.entries) (hremaps : Remaps i k m.map m'.map) :
    Effect scratch [i] m m' where
  grown := ⟨[], by rw [hentries, List.append_nil]⟩
  fresh k p hp halike := by
    rw [hentries] at halike
    exact absurd (lt_of_alike halike) (not_lt.mpr hp)
  only j hj := (hremaps.only j hj).imp_right List.mem_singleton.mpr
  keeps := hremaps.keeps

theorem mono (h : Effect scratch R m m') (hsub : R ⊆ R') : Effect scratch R' m m' where
  grown := h.grown
  fresh k p hp halike := by
    obtain ⟨x, hx, hxk⟩ := h.fresh k p hp halike
    exact ⟨x, hsub hx, hxk⟩
  only j hj := (h.only j hj).imp_right fun hmem => hsub hmem
  keeps := h.keeps

theorem trans (h : Effect scratch R m m') (h' : Effect scratch R m' m'')
    (hclosed : Closed m'.entries) : Effect scratch R m m'' where
  grown := by
    obtain ⟨new, hnew⟩ := h.grown
    obtain ⟨new', hnew'⟩ := h'.grown
    exact ⟨new ++ new', by rw [hnew', hnew, List.append_assoc]⟩
  fresh k p hp halike := by
    rcases lt_or_ge p m'.entries.length with hlt | hge
    · obtain ⟨new', hnew'⟩ := h'.grown
      rw [hnew', alike_append new' hclosed hlt] at halike
      exact h.fresh k p hp halike
    · exact h'.fresh k p hge halike
  only j hj := (h'.only j hj).elim (h.only j) Or.inr
  keeps j hj := by
    have hsame := h.keeps j hj
    exact (h'.keeps j (hsame ▸ hj)).trans hsame

/-- New entries for one constant. -/
theorem append {e : CpEntry} {rest : Entries} (hrest : Padding rest)
    (hentries : m'.entries = m.entries ++ e :: rest)
    (hremaps : Remaps i m.entries.length m.map m'.map)
    (halike : SelfAlike scratch i →
      alike depth (scratch.map revert) i m'.entries m.entries.length = true)
    (hnone : ¬SelfAlike scratch i → ∀ k,
      alike depth (scratch.map revert) k m'.entries m.entries.length = false) :
    Effect scratch [i] m m' where
  grown := ⟨_, hentries⟩
  fresh k p hp hk := by
    rcases Nat.lt_or_eq_of_le hp with hlt | rfl
    · refine absurd ?_ (ne_invalid_of_alike hk)
      rw [hentries, entryAt_padding hrest hlt]
    · by_cases hself : SelfAlike scratch i
      · exact ⟨i, List.mem_singleton_self i, alike_trans (halike hself) (alike_symm hk)⟩
      · rw [hnone hself k] at hk
        cases hk
  only j hj := (hremaps.only j hj).imp_right List.mem_singleton.mpr
  keeps := hremaps.keeps

theorem held (h : Effect scratch R m m') (hclosed : Closed m.entries)
    (hk : Held scratch m'.entries k) : Held scratch m.entries k ∨
      ∃ x ∈ R, alike depth (scratch.map revert) x (scratch.map revert) k = true := by
  obtain ⟨p, hp⟩ := hk
  rcases lt_or_ge p m.entries.length with hlt | hge
  · obtain ⟨new, hnew⟩ := h.grown
    rw [hnew, alike_append new hclosed hlt] at hp
    exact Or.inl ⟨p, hp⟩
  · exact Or.inr (h.fresh k p hge hp)

end Effect

/-- The entry at `i` is added last, with what it refers to before it. -/
structure Appended (scratch : Entries) (i : Nat) (m m' : Merge) : Prop
    extends Effect scratch (reached scratch i) m m' where
  room : m.entries.length + width (entryAt scratch i) ≤ m'.entries.length
  located : SelfAlike scratch i → alike depth (scratch.map revert) i m'.entries
    (m'.entries.length - width (entryAt scratch i)) = true
  own : m.map.findNewIndex i = 0 →
    m'.map.newIndex i = m'.entries.length - width (entryAt scratch i)
  flat : indices (entryAt scratch i) = none → m'.packed = m.packed ∧
    ∀ value ∈ m'.map.values, value ∈ m.map.values ∨ m.map.findNewIndex i = 0 ∧
      value = (m'.entries.length - width (entryAt scratch i) : Nat)

namespace Appended

variable {scratch : Entries} {m m₁ m' : Merge} {i : Nat}

/-- An entry that refers to no others. -/
theorem of_flat {e : CpEntry} {rest : Entries} (hrest : Padding rest)
    (hwidth : (e :: rest).length = width (entryAt scratch i))
    (hentries : m'.entries = m.entries ++ e :: rest)
    (hremaps : Remaps i m.entries.length m.map m'.map) (hpacked : m'.packed = m.packed)
    (halike : SelfAlike scratch i →
      alike depth (scratch.map revert) i m'.entries m.entries.length = true)
    (hnone : ¬SelfAlike scratch i → ∀ k,
      alike depth (scratch.map revert) k m'.entries m.entries.length = false) :
    Appended scratch i m m' := by
  have hlength : m'.entries.length - width (entryAt scratch i) = m.entries.length := by
    rw [hentries, List.length_append, hwidth, Nat.add_sub_cancel]
  refine ⟨(Effect.append hrest hentries hremaps halike hnone).mono (by simp [reached]), ?_, ?_, ?_,
    fun _ => ⟨hpacked, ?_⟩⟩
  · rw [hentries, List.length_append, hwidth]
  · rwa [hlength]
  · rw [hlength]
    exact hremaps.mapped
  · rw [hlength]
    exact hremaps.values

/-- An entry behind what it refers to. -/
theorem of_pair (hbuilt : Built scratch) {pair : Nat × Nat}
    (hindices : indices (entryAt scratch i) = some pair) (hclosed : Closed m₁.entries)
    (heffect : Effect scratch (parts scratch i) m m₁) {e : CpEntry}
    (hwidth : width (entryAt scratch i) = 1) (hentries : m'.entries = m₁.entries ++ [e])
    (hremaps : Remaps i m₁.entries.length m₁.map m'.map)
    (halike : alike depth (scratch.map revert) i m'.entries m₁.entries.length = true) :
    Appended scratch i m m' := by
  have hlength : m'.entries.length - width (entryAt scratch i) = m₁.entries.length := by
    rw [hentries, List.length_append, List.length_singleton, hwidth, Nat.add_sub_cancel]
  have hown : Effect scratch [i] m₁ m' := .append (fun _ he => absurd he List.not_mem_nil) hentries
    hremaps (fun _ => halike) fun hnot => absurd (selfAlike_of_alike halike) hnot
  refine ⟨(heffect.mono (List.subset_cons_self _ _)).trans (hown.mono (by simp)) hclosed,
    ?_, fun _ => by rwa [hlength], fun hzero => ?_, fun hnone => ?_⟩
  · obtain ⟨new, hnew⟩ := heffect.grown
    rw [hentries, hnew, hwidth]
    simp
  · rw [hlength]
    refine hremaps.mapped (by_contra fun hne => ?_)
    exact (heffect.only i hne).elim (fun h => h hzero) hbuilt.not_mem_parts
  · rw [hindices] at hnone
    cases hnone

end Appended

end HotSpot.PoolMerge
