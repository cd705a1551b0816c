import HotSpot.G1.SparsePRTLayout

/-! # The sparse remembered set is a finite map

The operations of the remembered set do what the plain operations do to a finite
set of region and card pairs. An expansion copies every slot of the last table
that was ever used, so it is right because no slot is on the free list by then:
free slots are used again before fresh ones, so at the number of entries that
makes the table expand all the slots used are live.
-/

namespace HotSpot

namespace RSHashTable

variable {n : Nat} {t : RSHashTable} {slots : Slots} {m : Nat → Option (List Nat)} {r c : Nat}

/-- `entry_for_region_ind_create`: a region is given an entry if it has none. -/
theorem Layout.create (h : Layout n t slots m)
    (hroom : m r = none → slots.live.card + 1 < t.capacity) :
    ∃ i t' slots', t.entryForRegionIndCreate n r = some (i, t') ∧
      Layout n t' slots' (Function.update m r (some ((m r).getD []))) ∧
      i ∈ slots'.live ∧ t'.region i = some r ∧
      t'.freeRegion ≤ max t.freeRegion (slots.live.card + 1) ∧ t'.capacity = t.capacity := by
  cases hm : m r with
  | none =>
    obtain ⟨i, t', slots', hcreate, hlayout, hi, hr, -, hregion, hcapacity, -⟩ :=
      h.create_absent hm (hroom hm)
    exact ⟨i, t', slots', hcreate, hlayout, hi, hr, hregion.le, hcapacity⟩
  | some cards =>
    obtain ⟨i, hi, hr, -, hfind⟩ := h.find_present hm
    refine ⟨i, t, slots, ?_, ?_, hi, hr, le_max_left _ _, rfl⟩
    · simp only [entryForRegionIndCreate, entryForRegionInd, hfind]
      rfl
    · rw [Option.getD_some, ← hm, Function.update_eq_self]
      exact h

/-- What adding a card does to the cards of a region, and whether they had room. -/
def cardsAfter (n : Nat) (cards : List Nat) (c : Nat) : Bool × List Nat :=
  if c ∈ cards then (true, cards)
  else if cards.length < n then (true, cards ++ [c])
  else (false, cards)

theorem Layout.addCard (h : Layout n t slots m)
    (hroom : m r = none → slots.live.card + 1 < t.capacity) :
    ∃ t' slots', t.addCard n r c = some ((cardsAfter n ((m r).getD []) c).1, t') ∧
      Layout n t' slots' (Function.update m r (some (cardsAfter n ((m r).getD []) c).2)) ∧
      t'.freeRegion ≤ max t.freeRegion (slots.live.card + 1) ∧ t'.capacity = t.capacity := by
  obtain ⟨i, t₁, slots', hcreate, h₁, hi, hr, hregion, hcapacity⟩ := h.create (r := r) hroom
  generalize (m r).getD [] = cards at *
  have hm₁ : Function.update m r (some cards) r = some cards := Function.update_self ..
  obtain ⟨cards', hm', hcards⟩ := h₁.cards_of_region hi hr
  rw [hm₁] at hm'
  obtain rfl := Option.some.inj hm'
  obtain ⟨hnodup, hlength⟩ := h₁.distinct r cards hm₁
  have hset : ∀ cards', t₁.setEntry i { t₁.entries i with cards := cards' } =
      t₁.setCards i cards' := fun _ => rfl
  simp only [RSHashTable.addCard, hcreate, Option.bind_eq_bind, Option.bind_some,
    SparsePRTEntry.addCard, hcards, hset]
  by_cases hc : c ∈ cards
  · rw [SparsePRTEntry.addCardLoop_found hc]
    have hafter : cardsAfter n cards c = (true, cards) := if_pos hc
    rw [hafter]
    refine ⟨_, slots', rfl, ?_, hregion, hcapacity⟩
    have hlayout := h₁.setCards hi hr hm₁ hnodup hlength rfl
    rw [Function.update_idem] at hlayout
    exact hlayout
  by_cases hfull : cards.length < n
  · rw [SparsePRTEntry.addCardLoop_added hc hfull]
    have hafter : cardsAfter n cards c = (true, cards ++ [c]) := by
      rw [cardsAfter, if_neg hc, if_pos hfull]
    rw [hafter]
    refine ⟨_, slots', rfl, ?_, hregion, hcapacity⟩
    have hnodup' : (cards ++ [c]).Nodup := by
      rw [List.nodup_append]
      refine ⟨hnodup, List.nodup_singleton c, ?_⟩
      intro a ha b hb hab
      rw [List.mem_singleton.mp hb] at hab
      exact hc (hab ▸ ha)
    have hlength' : (cards ++ [c]).length = cards.length + 1 := by simp
    have hcount : t₁.occupiedCards + 1 + cards.length =
        t₁.occupiedCards + (cards ++ [c]).length := by omega
    have hlayout := h₁.setCards hi hr hm₁ hnodup' (by omega) hcount
    rw [Function.update_idem] at hlayout
    exact hlayout
  · rw [SparsePRTEntry.addCardLoop_overflow hc (Nat.le_of_not_lt hfull)]
    have hafter : cardsAfter n cards c = (false, cards) := by
      rw [cardsAfter, if_neg hc, if_neg hfull]
    rw [hafter]
    refine ⟨_, slots', rfl, ?_, hregion, hcapacity⟩
    have hlayout := h₁.setCards hi hr hm₁ hnodup hlength rfl
    rw [Function.update_idem] at hlayout
    exact hlayout

/-- `add_entry`, for a region that the table does not have. -/
theorem Layout.addEntry (h : Layout n t slots m) (hroom : slots.live.card + 1 < t.capacity)
    (hm : m r = none) {cards : List Nat} (hnodup : cards.Nodup) (hlength : cards.length ≤ n) :
    ∃ t' slots', t.addEntry n r (SparsePRTEntry.filled n cards) = some t' ∧
      Layout n t' slots' (Function.update m r (some cards)) ∧
      slots'.live.card = slots.live.card + 1 ∧
      t'.freeRegion = max t.freeRegion (slots.live.card + 1) ∧ t'.capacity = t.capacity := by
  obtain ⟨i, t₁, slots', hcreate, h₁, hi, hr, hlive, hregion, hcapacity, -⟩ :=
    h.create_absent hm hroom
  have hm₁ : Function.update m r (some []) r = some [] := Function.update_self ..
  refine ⟨{ t₁.setCards i (SparsePRTEntry.filled n cards) with
    occupiedCards := t₁.occupiedCards + cards.length }, slots', ?_, ?_, hlive, hregion, hcapacity⟩
  · simp only [RSHashTable.addEntry, hcreate, Option.bind_eq_bind, Option.bind_some,
      numValidCards_eq (cards_setCards_self t₁ i _)]
    rfl
  · have hcount : t₁.occupiedCards + cards.length + ([] : List Nat).length =
        t₁.occupiedCards + cards.length := rfl
    have hlayout := h₁.setCards hi hr hm₁ hnodup hlength hcount
    rw [Function.update_idem] at hlayout
    exact hlayout

/-! ## Expanding the table -/

/-- The regions of a table's first `k` slots, with their cards. -/
def restrict (t : RSHashTable) (m : Nat → Option (List Nat)) (k : Nat) (r : Nat) :
    Option (List Nat) :=
  if (List.range k).any (fun j => t.region j = some r) then m r else none

theorem restrict_succ {k : Nat} {cards : List Nat} (hr : t.region k = some r)
    (hm : m r = some cards) :
    t.restrict m (k + 1) = Function.update (t.restrict m k) r (some cards) := by
  funext r'
  by_cases hr' : r' = r
  · subst hr'
    simp [restrict, List.range_succ, hr, hm]
  · have hne : ¬ r = r' := fun heq => hr' heq.symm
    simp [restrict, List.range_succ, hr, hr', hne]

/-- With no slot on the free list, the slots used are the live ones. -/
theorem Linked.live_eq_range (h : t.Linked slots) (hfree : slots.free = []) :
    slots.live = Finset.range t.freeRegion := by
  have hused := h.slotsUsed
  rw [hfree, List.length_nil, Nat.add_zero] at hused
  refine Finset.eq_of_subset_of_card_le (fun i hi => ?_) ?_
  · exact Finset.mem_range.mpr (h.liveBelow i hi)
  · rw [Finset.card_range, hused]

theorem Layout.restrict_freeRegion (h : Layout n t slots m) :
    t.restrict m t.freeRegion = m := by
  funext r
  rw [restrict]
  split
  · rfl
  · next hany =>
    cases hm : m r with
    | none => rfl
    | some cards =>
      obtain ⟨i, hi, hr⟩ := h.slot r cards hm
      refine absurd ?_ hany
      rw [List.any_eq_true]
      exact ⟨i, List.mem_range.mpr (h.liveBelow i hi), by simpa using hr⟩

/-- The loop of `expand` over the slots that were used. -/
theorem Layout.transfer_used (h : Layout n t slots m) (hfree : slots.free = []) {k : Nat}
    (hk : k ≤ t.freeRegion) :
    ∃ t' slots', (List.range k).foldlM (transferEntry n t) (.fresh n (t.capacity * 2)) = some t' ∧
      Layout n t' slots' (t.restrict m k) ∧ slots'.live.card = k ∧ t'.freeRegion = k ∧
      t'.capacity = t.capacity * 2 := by
  have hroom := h.room
  induction k with
  | zero =>
    have hempty : t.restrict m 0 = fun _ => none := by
      funext r
      simp [restrict]
    refine ⟨_, ⟨fun _ => [], ∅, []⟩, rfl, ?_, rfl, rfl, rfl⟩
    rw [hempty]
    exact Layout.fresh n (by omega)
  | succ k ih =>
    obtain ⟨t', slots', hfold, h', hcard, hregion, hcapacity⟩ := ih (by omega)
    have hlive : k ∈ slots.live := by
      rw [h.live_eq_range hfree]
      exact Finset.mem_range.mpr hk
    obtain ⟨r, cards, hr, hm, hcards⟩ := h.entry k hlive
    obtain ⟨hnodup, hlength⟩ := h.distinct r cards hm
    have habsent : t.restrict m k r = none := by
      rw [restrict, if_neg]
      rw [List.any_eq_true]
      rintro ⟨j, hj, hjr⟩
      have hjk : j < k := List.mem_range.mp hj
      have hjlive : j ∈ slots.live := by
        rw [h.live_eq_range hfree]
        exact Finset.mem_range.mpr (hjk.trans hk)
      have heq := h.oneSlot j hjlive k hlive ((of_decide_eq_true hjr).trans hr.symm)
      omega
    obtain ⟨t'', slots'', hadd, h'', hcard', hregion', hcapacity'⟩ :=
      h'.addEntry (by omega) habsent hnodup hlength
    refine ⟨t'', slots'', ?_, ?_, ?_, ?_, hcapacity'.trans hcapacity⟩
    · rw [List.range_succ, List.foldlM_append, hfold]
      have hr' : (t.entries k).regionInd = some r := hr
      simp only [Option.bind_eq_bind, Option.bind_some, List.foldlM_cons, List.foldlM_nil,
        transferEntry, hr', hcards, hadd]
      rfl
    · rw [restrict_succ hr hm]
      exact h''
    · omega
    · omega

theorem new_eq {capacity : Nat} (hint : capacity ≤ 2 ^ 31 - 1) :
    new n capacity = some (.fresh n capacity) :=
  if_pos hint

/-- A last table of at least `2 ^ 30` entries cannot be doubled. -/
theorem expand_eq_none (hint : 2 ^ 31 - 1 < t.capacity * 2) : t.expand n = none := by
  have hnew : new n (t.capacity * 2) = none := if_neg (not_le.mpr hint)
  rw [RSHashTable.expand, hnew]
  rfl

theorem Layout.expand (h : Layout n t slots m) (hfree : slots.free = [])
    (hint : t.capacity * 2 ≤ 2 ^ 31 - 1) :
    ∃ t' slots', t.expand n = some t' ∧ Layout n t' slots' m ∧
      slots'.live.card = slots.live.card ∧ t'.freeRegion = t.freeRegion ∧
      t'.capacity = t.capacity * 2 := by
  obtain ⟨t', slots', hfold, h', hcard, hregion, hcapacity⟩ := h.transfer_used hfree le_rfl
  rw [h.restrict_freeRegion] at h'
  have hused := h.slotsUsed
  rw [hfree, List.length_nil, Nat.add_zero] at hused
  refine ⟨t', slots', ?_, h', hcard.trans hused, hregion, hcapacity⟩
  obtain ⟨rest, hrest⟩ := Nat.exists_eq_add_of_le h.room.le
  have hrange : List.range t.capacity =
      List.range t.freeRegion ++ (List.range rest).map (t.freeRegion + ·) := by
    rw [hrest, List.range_add]
  have hskip : ∀ l : List Nat, (∀ j ∈ l, t.freeRegion ≤ j) →
      l.foldlM (transferEntry n t) t' = some t' := by
    intro l hl
    induction l with
    | nil => rfl
    | cons j l ih =>
      have hj : (t.entries j).regionInd = none := h.unused j (hl j List.mem_cons_self)
      rw [List.foldlM_cons, transferEntry, hj]
      exact ih fun k hk => hl k (List.mem_cons_of_mem _ hk)
  rw [RSHashTable.expand, new_eq hint, Option.bind_eq_bind, Option.bind_some, hrange,
    List.foldlM_append, hfold]
  refine hskip _ fun j hj => ?_
  obtain ⟨k, -, rfl⟩ := List.mem_map.mp hj
  exact Nat.le_add_right _ _

end RSHashTable

/-! ## The plain operations -/

/-- The remembered cards as a finite set of region and card pairs. -/
abbrev CardMap := Finset (Nat × Nat)

namespace CardMap

/-- The cards of a region. -/
def cardsOf (s : CardMap) (r : Nat) : Finset Nat := (s.filter (·.1 = r)).image Prod.snd

def regions (s : CardMap) : Finset Nat := s.image Prod.fst

/-- A card is refused when its region holds `n` other cards. -/
def addCard (n : Nat) (s : CardMap) (r c : Nat) : Bool × CardMap :=
  if ((s.cardsOf r).erase c).card = n then (false, s) else (true, insert (r, c) s)

def deleteEntry (s : CardMap) (r : Nat) : Bool × CardMap :=
  (decide (r ∈ s.regions), s.filter (·.1 ≠ r))

def perform (n : Nat) (s : CardMap) : SparsePRT.Operation → Option Bool × CardMap
  | .addCard r c => (some (s.addCard n r c).1, (s.addCard n r c).2)
  | .deleteEntry r => (some (s.deleteEntry r).1, (s.deleteEntry r).2)
  | .clear => (none, ∅)
  | .cleanup => (none, s)

def run (n : Nat) (s : CardMap) : List SparsePRT.Operation → List (Option Bool) × CardMap
  | [] => ([], s)
  | op :: ops => ((s.perform n op).1 :: (run n (s.perform n op).2 ops).1,
      (run n (s.perform n op).2 ops).2)

@[simp] theorem mem_cardsOf {s : CardMap} {r c : Nat} : c ∈ s.cardsOf r ↔ (r, c) ∈ s := by
  simp [cardsOf]

@[simp] theorem mem_regions {s : CardMap} {r : Nat} : r ∈ s.regions ↔ ∃ c, (r, c) ∈ s := by
  simp [regions]

end CardMap

/-- The map `m` lists the cards of `s`, region by region. -/
structure Lists (m : Nat → Option (List Nat)) (s : CardMap) : Prop where
  mem : ∀ r c, (r, c) ∈ s ↔ ∃ cards, m r = some cards ∧ c ∈ cards
  nonempty : ∀ r cards, m r = some cards → cards ≠ []

namespace Lists

variable {m : Nat → Option (List Nat)} {s : CardMap} {n r c : Nat}

theorem mem_getD (h : Lists m s) : (r, c) ∈ s ↔ c ∈ (m r).getD [] := by
  rw [h.mem]
  cases m r <;> simp

theorem cardsOf_eq (h : Lists m s) (r : Nat) : s.cardsOf r = ((m r).getD []).toFinset := by
  ext c
  rw [CardMap.mem_cardsOf, List.mem_toFinset, h.mem_getD]

theorem mem_regions (h : Lists m s) : r ∈ s.regions ↔ ∃ cards, m r = some cards := by
  rw [CardMap.mem_regions]
  constructor
  · rintro ⟨c, hc⟩
    obtain ⟨cards, hm, -⟩ := (h.mem r c).mp hc
    exact ⟨cards, hm⟩
  · rintro ⟨cards, hm⟩
    obtain ⟨c, hc⟩ := List.exists_mem_of_ne_nil cards (h.nonempty r cards hm)
    exact ⟨c, (h.mem r c).mpr ⟨cards, hm, hc⟩⟩

theorem empty : Lists (fun _ => none) ∅ := ⟨by simp, by simp⟩

/-- Rewriting the cards of one region. -/
theorem update (h : Lists m s) {s' : CardMap} {cards : List Nat}
    (hother : ∀ r' c, r' ≠ r → ((r', c) ∈ s' ↔ (r', c) ∈ s))
    (hself : ∀ c, (r, c) ∈ s' ↔ c ∈ cards) (hcards : cards ≠ []) :
    Lists (Function.update m r (some cards)) s' := by
  constructor
  · intro r' c
    by_cases hr : r' = r
    · subst hr
      simp [hself]
    · rw [hother r' c hr, Function.update_of_ne hr, h.mem]
  · intro r' cards' hm
    by_cases hr : r' = r
    · subst hr
      rw [Function.update_self] at hm
      exact Option.some.inj hm ▸ hcards
    · rw [Function.update_of_ne hr] at hm
      exact h.nonempty r' cards' hm

theorem addCard (h : Lists m s) (hn : 0 < n)
    (hdistinct : ((m r).getD []).Nodup ∧ ((m r).getD []).length ≤ n) :
    (s.addCard n r c).1 = (RSHashTable.cardsAfter n ((m r).getD []) c).1 ∧
      Lists (Function.update m r (some (RSHashTable.cardsAfter n ((m r).getD []) c).2))
        (s.addCard n r c).2 := by
  have hmem : ∀ c, (r, c) ∈ s ↔ c ∈ (m r).getD [] := fun c => h.mem_getD
  have hcardsOf := h.cardsOf_eq r
  generalize (m r).getD [] = cards at *
  obtain ⟨hnodup, hlength⟩ := hdistinct
  have hcard := List.toFinset_card_of_nodup hnodup
  rw [CardMap.addCard, RSHashTable.cardsAfter, hcardsOf]
  by_cases hc : c ∈ cards
  · have hne : ((cards.toFinset).erase c).card ≠ n := by
      rw [Finset.card_erase_of_mem (List.mem_toFinset.mpr hc), hcard]
      have := List.length_pos_of_mem hc
      omega
    rw [if_neg hne, if_pos hc, Finset.insert_eq_self.mpr ((hmem c).mpr hc)]
    exact ⟨rfl, h.update (fun _ _ _ => Iff.rfl) hmem (List.ne_nil_of_mem hc)⟩
  have herase : ((cards.toFinset).erase c).card = cards.length := by
    rw [Finset.erase_eq_of_notMem (by simpa using hc), hcard]
  rw [herase, if_neg hc]
  by_cases hfull : cards.length < n
  · rw [if_neg hfull.ne, if_pos hfull]
    refine ⟨rfl, h.update ?_ ?_ (by simp)⟩
    · intro r' c' hr
      simp [hr]
    · intro c'
      simp [hmem, or_comm]
  · have heq : cards.length = n := by omega
    have hne : cards ≠ [] := by
      rintro rfl
      simp at heq
      omega
    rw [if_pos heq, if_neg hfull]
    exact ⟨rfl, h.update (fun _ _ _ => Iff.rfl) hmem hne⟩

theorem deleteEntry (h : Lists m s) :
    Lists (Function.update m r none) (s.deleteEntry r).2 := by
  constructor
  · intro r' c
    by_cases hr : r' = r
    · subst hr
      simp [CardMap.deleteEntry]
    · simp [CardMap.deleteEntry, hr, h.mem]
  · intro r' cards hm
    by_cases hr : r' = r
    · subst hr
      rw [Function.update_self] at hm
      cases hm
    · rw [Function.update_of_ne hr] at hm
      exact h.nonempty r' cards hm

/-- Deleting a region that the map does not have changes nothing. -/
theorem deleteEntry_absent (h : Lists m s) (hm : m r = none) : s.deleteEntry r = (false, s) := by
  have hnot : r ∉ s.regions := fun hr => by
    obtain ⟨cards, hcards⟩ := h.mem_regions.mp hr
    rw [hm] at hcards
    cases hcards
  rw [CardMap.deleteEntry, decide_eq_false hnot, Finset.filter_true_of_mem]
  rintro ⟨r', c⟩ hp rfl
  exact hnot (CardMap.mem_regions.mpr ⟨c, hp⟩)

end Lists

namespace RSHashTable

variable {n : Nat} {t : RSHashTable} {slots : Slots} {m : Nat → Option (List Nat)} {s : CardMap}

/-- The regions are those of the live slots. -/
theorem Layout.regions_eq (h : Layout n t slots m) (hlists : Lists m s) :
    s.regions = slots.live.image fun i => (t.region i).getD 0 := by
  ext r
  rw [hlists.mem_regions, Finset.mem_image]
  constructor
  · rintro ⟨cards, hm⟩
    obtain ⟨i, hi, hr⟩ := h.slot r cards hm
    exact ⟨i, hi, by rw [hr, Option.getD_some]⟩
  · rintro ⟨i, hi, rfl⟩
    obtain ⟨r, cards, hr, hm, -⟩ := h.entry i hi
    exact ⟨cards, by rw [hr, Option.getD_some, hm]⟩

theorem Layout.injOn_region (h : Layout n t slots m) :
    Set.InjOn (fun i => (t.region i).getD 0) slots.live := by
  intro i hi j hj hij
  obtain ⟨r, -, hr, -⟩ := h.entry i hi
  obtain ⟨r', -, hr', -⟩ := h.entry j hj
  refine h.oneSlot i hi j hj ?_
  simp only [hr, hr', Option.getD_some] at hij ⊢
  rw [hij]

/-- The counters of a table count the regions and the cards. -/
theorem Layout.occupied (h : Layout n t slots m) (hlists : Lists m s) :
    t.occupiedEntries = s.regions.card ∧ t.occupiedCards = s.card := by
  constructor
  · rw [h.regions_eq hlists, h.entriesCount, Finset.card_image_of_injOn h.injOn_region]
  · have hfiber : ∀ r, (s.filter fun p => p.1 = r).card = (s.cardsOf r).card := by
      intro r
      refine (Finset.card_image_of_injOn ?_).symm
      intro p hp q hq hpq
      simp only [Finset.coe_filter, Set.mem_ofPred_eq] at hp hq
      exact Prod.ext (hp.2.trans hq.2.symm) hpq
    have hentry : ∀ i ∈ slots.live, (t.entries i).numValidCards =
        (s.cardsOf ((t.region i).getD 0)).card := by
      intro i hi
      obtain ⟨r, cards, hr, hm, hcards⟩ := h.entry i hi
      rw [numValidCards_eq hcards, hr, Option.getD_some, hlists.cardsOf_eq, hm, Option.getD_some,
        List.toFinset_card_of_nodup (h.distinct r cards hm).1]
    calc t.occupiedCards
        = ∑ i ∈ slots.live, (s.cardsOf ((t.region i).getD 0)).card := by
          rw [h.cardsCount, Finset.sum_congr rfl hentry]
      _ = ∑ r ∈ s.regions, (s.cardsOf r).card := by
          rw [h.regions_eq hlists, Finset.sum_image h.injOn_region]
      _ = ∑ r ∈ s.regions, (s.filter fun p => p.1 = r).card := by simp only [hfiber]
      _ = s.card := (Finset.card_eq_sum_card_image Prod.fst s).symm

end RSHashTable

/-! ## The remembered set -/

namespace SparsePRT

/-- What the remembered set answers when it holds the cards `s`. -/
structure Represents (n : Nat) (prt : SparsePRT) (s : CardMap) : Prop where
  containsCard : ∀ r c, prt.containsCard r c = some (decide ((r, c) ∈ s))
  absent : ∀ r, r ∉ s.regions → prt.getCards r = some none ∧ prt.getEntry r = some none
  present : ∀ r ∈ s.regions, ∃ cards e, cards.Nodup ∧ cards.toFinset = s.cardsOf r ∧
    prt.getCards r = some (some (SparsePRTEntry.filled n cards)) ∧
    prt.getEntry r = some (some e) ∧ e.regionInd = some r ∧
    e.cards = SparsePRTEntry.filled n cards
  occupiedEntries : prt.next.occupiedEntries = s.regions.card
  occupiedCards : prt.next.occupiedCards = s.card

/-- The invariant: the table has the layout of a map, its capacity has been doubled while that
gave an `int`, and it expands before more than one slot over half of them is used. -/
structure Invariant (n : Nat) (prt : SparsePRT) (s : CardMap) : Prop where
  layout : ∃ slots m, prt.next.Layout n slots m ∧ Lists m s
  capacity : ∃ k ≤ 26, prt.next.capacity = initialCapacity * 2 ^ k
  half : 2 * prt.next.freeRegion ≤ prt.next.capacity + 2

variable {n : Nat} {prt : SparsePRT} {s : CardMap}

theorem Invariant.represents (h : prt.Invariant n s) : prt.Represents n s := by
  obtain ⟨slots, m, hlayout, hlists⟩ := h.layout
  obtain ⟨hentries, hcards⟩ := hlayout.occupied hlists
  refine ⟨?_, ?_, ?_, hentries, hcards⟩
  · intro r c
    have hmem := hlists.mem_getD (r := r) (c := c)
    cases hm : m r with
    | none =>
      simp only [SparsePRT.containsCard, RSHashTable.containsCard,
        RSHashTable.entryForRegionInd, hlayout.find_absent hm]
      simp [hmem, hm]
    | some cards =>
      obtain ⟨i, -, -, hfilled, hfind⟩ := hlayout.find_present hm
      simp only [SparsePRT.containsCard, RSHashTable.containsCard,
        RSHashTable.entryForRegionInd, hfind]
      simp [hmem, hm, SparsePRTEntry.containsCard, hfilled, SparsePRTEntry.any_filled]
  · intro r hr
    have hm : m r = none := by
      by_contra hne
      exact hr (hlists.mem_regions.mpr (Option.ne_none_iff_exists'.mp hne))
    simp [SparsePRT.getCards, RSHashTable.getCards, SparsePRT.getEntry, RSHashTable.getEntry,
      hlayout.find_absent hm]
  · intro r hr
    obtain ⟨cards, hm⟩ := hlists.mem_regions.mp hr
    obtain ⟨i, -, hregion, hfilled, hfind⟩ := hlayout.find_present hm
    refine ⟨cards, prt.next.entries i, (hlayout.distinct r cards hm).1, ?_, ?_, ?_, hregion,
      hfilled⟩
    · rw [hlists.cardsOf_eq, hm, Option.getD_some]
    · simp [SparsePRT.getCards, RSHashTable.getCards, hfind, hfilled]
    · simp [SparsePRT.getEntry, RSHashTable.getEntry, hfind]

/-- Regions that the map can hold when a card is added: those of a table that can expand. -/
def maxRegions : Nat := 2 ^ 29

theorem Invariant.capacity_bounds (h : prt.Invariant n s) :
    16 ≤ prt.next.capacity ∧ prt.next.capacity ≤ 2 ^ 30 := by
  obtain ⟨k, hk, hcapacity⟩ := h.capacity
  have hle := Nat.pow_le_pow_right (n := 2) (by decide) hk
  have hpos := Nat.two_pow_pos k
  simp only [initialCapacity] at hcapacity
  omega

theorem Invariant.occupiedEntries_eq (h : prt.Invariant n s) :
    prt.next.occupiedEntries = s.regions.card := by
  obtain ⟨slots, m, hlayout, hlists⟩ := h.layout
  exact (hlayout.occupied hlists).1

theorem new_spec (n : Nat) :
    ∃ prt, SparsePRT.new n = some prt ∧ prt.next = .fresh n initialCapacity := by
  refine ⟨⟨none, .fresh n initialCapacity, false⟩, ?_, rfl⟩
  rw [SparsePRT.new, RSHashTable.new_eq (by decide)]
  rfl

theorem Invariant.of_fresh (hnext : prt.next = .fresh n initialCapacity) : prt.Invariant n ∅ := by
  constructor <;> rw [hnext]
  · exact ⟨_, _, RSHashTable.Layout.fresh n (by decide), Lists.empty⟩
  · exact ⟨0, by decide, rfl⟩
  · simp [RSHashTable.fresh]

/-- An expansion happens when all the slots used are live, and keeps the map. -/
theorem Invariant.expand (h : prt.Invariant n s)
    (hfull : prt.next.occupiedEntries * 2 > prt.next.capacity)
    (hregions : s.regions.card ≤ maxRegions) :
    ∃ prt', prt.expand n = some prt' ∧ prt'.Invariant n s ∧
      2 * prt'.next.occupiedEntries ≤ prt'.next.capacity := by
  have hbounds := h.capacity_bounds
  have hentries := h.occupiedEntries_eq
  have hhalf := h.half
  simp only [maxRegions] at hregions
  -- The capacity is a power of two below `2 ^ 30`.
  obtain ⟨k, hk, hdoubled⟩ : ∃ k ≤ 26, prt.next.capacity * 2 = initialCapacity * 2 ^ k := by
    obtain ⟨k, hk, hcapacity⟩ := h.capacity
    refine ⟨k + 1, ?_, by rw [hcapacity, Nat.pow_succ, Nat.mul_assoc]⟩
    by_contra hlast
    obtain rfl : k = 26 := by omega
    simp only [initialCapacity] at hcapacity
    omega
  obtain ⟨slots, m, hlayout, hlists⟩ := h.layout
  have hused := hlayout.slotsUsed
  have hcount := hlayout.entriesCount
  have hfree : slots.free = [] := List.length_eq_zero_iff.mp (by omega)
  obtain ⟨t', slots', hexpand, hlayout', hcard, hregion, hcapacity'⟩ :=
    hlayout.expand hfree (by omega)
  have hcount' := hlayout'.entriesCount
  refine ⟨⟨some (prt.cur.getD prt.next), t', true⟩, ?_,
    ⟨⟨slots', m, hlayout', hlists⟩, ⟨k, hk, hcapacity'.trans hdoubled⟩, ?_⟩, ?_⟩
  · simp [SparsePRT.expand, hexpand]
  · simp only
    omega
  · simp only
    omega

theorem Invariant.addCard (h : prt.Invariant n s) (hn : 0 < n) (r c : Nat)
    (hregions : s.regions.card ≤ maxRegions) :
    ∃ prt', prt.addCard n r c = some ((s.addCard n r c).1, prt') ∧
      prt'.Invariant n (s.addCard n r c).2 := by
  -- After the test the table holds at most half of its capacity.
  obtain ⟨prt₁, htest, h₁, hhalf⟩ : ∃ prt₁, prt.expandIfFull n = some prt₁ ∧
      prt₁.Invariant n s ∧ 2 * prt₁.next.occupiedEntries ≤ prt₁.next.capacity := by
    rw [expandIfFull]
    by_cases hfull : prt.next.occupiedEntries * 2 > prt.next.capacity
    · rw [if_pos hfull]
      exact h.expand hfull hregions
    · rw [if_neg hfull]
      exact ⟨prt, rfl, h, by omega⟩
  obtain ⟨slots, m, hlayout, hlists⟩ := h₁.layout
  have hcount := hlayout.entriesCount
  have hregion := h₁.half
  have hbounds := h₁.capacity_bounds
  obtain ⟨t', slots', hadd, hlayout', hregion', hcapacity'⟩ :=
    hlayout.addCard (r := r) (c := c) fun _ => by omega
  have hdistinct : ((m r).getD []).Nodup ∧ ((m r).getD []).length ≤ n := by
    cases hm : m r with
    | none => simp
    | some cards => exact hlayout.distinct r cards hm
  obtain ⟨hresult, hlists'⟩ := hlists.addCard hn hdistinct (c := c)
  refine ⟨{ prt₁ with next := t' }, ?_, ⟨slots', _, hlayout', hlists'⟩, ?_, ?_⟩
  · simp [SparsePRT.addCard, htest, hadd, hresult]
  · rw [hcapacity']
    exact h₁.capacity
  · simp only
    omega

/-- With more regions the table is full at the largest capacity there is. -/
theorem Invariant.addCard_eq_none (h : prt.Invariant n s) (r c : Nat)
    (hregions : maxRegions < s.regions.card) : prt.addCard n r c = none := by
  have hbounds := h.capacity_bounds
  have hentries := h.occupiedEntries_eq
  have hhalf := h.half
  simp only [maxRegions] at hregions
  obtain ⟨slots, m, hlayout, -⟩ := h.layout
  have hused := hlayout.slotsUsed
  have hcount := hlayout.entriesCount
  have hfull : prt.next.occupiedEntries * 2 > prt.next.capacity := by omega
  have hexpand : prt.next.expand n = none := RSHashTable.expand_eq_none (by omega)
  simp [SparsePRT.addCard, expandIfFull, hfull, SparsePRT.expand, hexpand]

theorem Invariant.deleteEntry (h : prt.Invariant n s) (r : Nat) :
    ∃ prt', prt.deleteEntry r = some ((s.deleteEntry r).1, prt') ∧
      prt'.Invariant n (s.deleteEntry r).2 := by
  obtain ⟨slots, m, hlayout, hlists⟩ := h.layout
  cases hm : m r with
  | none =>
    rw [hlists.deleteEntry_absent hm]
    refine ⟨prt, ?_, h⟩
    simp [SparsePRT.deleteEntry, hlayout.deleteEntry_absent hm]
  | some cards =>
    obtain ⟨t', i, hdelete, -, hlayout', hregion, hcapacity⟩ := hlayout.deleteEntry_present hm
    have hr : (s.deleteEntry r).1 = true :=
      decide_eq_true (hlists.mem_regions.mpr ⟨cards, hm⟩)
    refine ⟨{ prt with next := t' }, ?_, ⟨_, _, hlayout', hlists.deleteEntry⟩, ?_, ?_⟩
    · simp [SparsePRT.deleteEntry, hdelete, hr]
    · rw [hcapacity]
      exact h.capacity
    · rw [hregion, hcapacity]
      exact h.half

theorem clear_spec (n : Nat) (prt : SparsePRT) :
    ∃ prt', prt.clear n = some prt' ∧ prt'.next = .fresh n initialCapacity := by
  refine ⟨{ prt with cur := none, next := .fresh n initialCapacity }, ?_, rfl⟩
  simp only [SparsePRT.clear]
  split
  · rw [RSHashTable.new_eq (by decide)]
    rfl
  · next hcapacity =>
    rw [not_not] at hcapacity
    rw [RSHashTable.clear, hcapacity, if_pos (by decide)]
    rfl

/-- Whether an operation is asked for with no more regions than it can go on with. -/
def Operation.Bounded (s : CardMap) : Operation → Prop
  | .addCard _ _ => s.regions.card ≤ maxRegions
  | _ => True

/-- The map holds cards of at most `maxRegions` regions whenever a card is added. -/
def Bounded (n : Nat) (s : CardMap) : List Operation → Prop
  | [] => True
  | op :: ops => op.Bounded s ∧ Bounded n (s.perform n op).2 ops

theorem Invariant.perform (h : prt.Invariant n s) (hn : 0 < n) {op : Operation}
    (hop : op.Bounded s) :
    ∃ prt', prt.perform n op = some ((s.perform n op).1, prt') ∧
      prt'.Invariant n (s.perform n op).2 := by
  cases op with
  | addCard r c =>
    obtain ⟨prt', hadd, h'⟩ := h.addCard hn r c hop
    exact ⟨prt', by simp [SparsePRT.perform, hadd, CardMap.perform], h'⟩
  | deleteEntry r =>
    obtain ⟨prt', hdelete, h'⟩ := h.deleteEntry r
    exact ⟨prt', by simp [SparsePRT.perform, hdelete, CardMap.perform], h'⟩
  | clear =>
    obtain ⟨prt', hclear, hnext⟩ := clear_spec n prt
    exact ⟨prt', by simp [SparsePRT.perform, hclear, CardMap.perform], .of_fresh hnext⟩
  | cleanup => exact ⟨prt.cleanup, rfl, h.layout, h.capacity, h.half⟩

theorem Invariant.perform_eq_none (h : prt.Invariant n s) {op : Operation}
    (hop : ¬ op.Bounded s) : prt.perform n op = none := by
  cases op with
  | addCard r c =>
    rw [SparsePRT.perform, h.addCard_eq_none r c (not_le.mp hop), Option.map_none]
  | deleteEntry r => exact absurd trivial hop
  | clear => exact absurd trivial hop
  | cleanup => exact absurd trivial hop

theorem Invariant.run (h : prt.Invariant n s) (hn : 0 < n) {ops : List Operation}
    (hops : Bounded n s ops) :
    ∃ prt', prt.run n ops = some ((s.run n ops).1, prt') ∧ prt'.Invariant n (s.run n ops).2 := by
  induction ops generalizing prt s with
  | nil => exact ⟨prt, rfl, h⟩
  | cons op ops ih =>
    obtain ⟨prt₁, hperform, h₁⟩ := h.perform hn hops.1
    obtain ⟨prt₂, hrun, h₂⟩ := ih h₁ hops.2
    exact ⟨prt₂, by simp [SparsePRT.run, hperform, hrun, CardMap.run], h₂⟩

theorem Invariant.run_eq_none (h : prt.Invariant n s) (hn : 0 < n) {ops : List Operation}
    (hops : ¬ Bounded n s ops) : prt.run n ops = none := by
  induction ops generalizing prt s with
  | nil => exact absurd trivial hops
  | cons op ops ih =>
    rw [SparsePRT.run]
    by_cases hop : op.Bounded s
    · obtain ⟨prt₁, hperform, h₁⟩ := h.perform hn hop
      simp [hperform, ih h₁ fun hrest => hops ⟨hop, hrest⟩]
    · simp [h.perform_eq_none hop]

/-- The run of the operations on a new remembered set returns what the plain operations return,
and the remembered set answers as the map they make. -/
def Refines (n : Nat) (ops : List Operation) : Prop :=
  ∃ prt, (SparsePRT.new n).bind (fun prt => prt.run n ops) =
      some ((CardMap.run n ∅ ops).1, prt) ∧ prt.Represents n (CardMap.run n ∅ ops).2

theorem refines_iff_bounded (hn : 0 < n) (ops : List Operation) :
    Refines n ops ↔ Bounded n ∅ ops := by
  obtain ⟨start, hnew, hnext⟩ := new_spec n
  have hinvariant : start.Invariant n ∅ := .of_fresh hnext
  rw [Refines, hnew, Option.bind_some]
  constructor
  · rintro ⟨prt, hrun, -⟩
    by_contra hops
    rw [hinvariant.run_eq_none hn hops] at hrun
    cases hrun
  · intro hops
    obtain ⟨prt, hrun, hlast⟩ := hinvariant.run hn hops
    exact ⟨prt, hrun, hlast.represents⟩

/-- The sparse remembered set refines a finite map in just the runs that add no card while the
map holds cards of more than `maxRegions` regions: there `clear` stops the expansion. -/
theorem run_represents_iff (g1RSetSparseRegionEntries : BitVec 64) (ops : List Operation) :
    Refines (SparsePRTEntry.cardsNum g1RSetSparseRegionEntries) ops ↔
      Bounded (SparsePRTEntry.cardsNum g1RSetSparseRegionEntries) ∅ ops :=
  refines_iff_bounded (SparsePRTEntry.cardsNum_pos g1RSetSparseRegionEntries) ops

/-! ## A card for each region -/

/-- The first card of each of the first `k` regions. -/
def firstCards (k : Nat) : List Operation := (List.range k).map fun r => .addCard r 0

theorem bounded_append (n : Nat) (s : CardMap) (ops ops' : List Operation) :
    Bounded n s (ops ++ ops') ↔ Bounded n s ops ∧ Bounded n (s.run n ops).2 ops' := by
  induction ops generalizing s with
  | nil => simp [Bounded, CardMap.run]
  | cons op ops ih =>
    rw [List.cons_append, Bounded, Bounded, ih, CardMap.run, and_assoc]

theorem run_append_singleton (n : Nat) (s : CardMap) (ops : List Operation) (op : Operation) :
    (s.run n (ops ++ [op])).2 = ((s.run n ops).2.perform n op).2 := by
  induction ops generalizing s with
  | nil => rfl
  | cons op' ops ih => exact ih _

theorem regions_firstCards (hn : 0 < n) (k : Nat) :
    (CardMap.run n ∅ (firstCards k)).2.regions = Finset.range k := by
  induction k with
  | zero => rfl
  | succ k ih =>
    rw [firstCards, List.range_succ, List.map_append, List.map_singleton,
      run_append_singleton, ← firstCards]
    generalize (CardMap.run n ∅ (firstCards k)).2 = s at ih ⊢
    have hnone : ∀ c, (k, c) ∉ s := by
      intro c hc
      have hmem := CardMap.mem_regions.mpr ⟨c, hc⟩
      rw [ih, Finset.mem_range] at hmem
      exact Nat.lt_irrefl k hmem
    have hempty : s.cardsOf k = ∅ := by
      ext c
      simpa using hnone c
    have hadd : (s.addCard n k 0).2 = insert (k, 0) s := by
      rw [CardMap.addCard, hempty, if_neg (by simpa using hn.ne)]
    rw [CardMap.perform, hadd, CardMap.regions, Finset.image_insert, ← CardMap.regions, ih,
      Finset.range_add_one]

/-- One region more than `maxRegions`, and a card for yet another one. -/
theorem not_run_represents :
    ¬ Refines (SparsePRTEntry.cardsNum 0) (firstCards (2 ^ 29 + 2)) := by
  have hn := SparsePRTEntry.cardsNum_pos 0
  rw [refines_iff_bounded hn]
  have hsplit (k : Nat) : firstCards (k + 1) = firstCards k ++ [.addCard k 0] := by
    rw [firstCards, List.range_succ, List.map_append, List.map_singleton, ← firstCards]
  rw [hsplit, bounded_append]
  rintro ⟨-, hlast, -⟩
  rw [Operation.Bounded, regions_firstCards hn, Finset.card_range] at hlast
  exact absurd hlast (by decide)

end SparsePRT

end HotSpot
