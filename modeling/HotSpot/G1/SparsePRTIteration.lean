import Mathlib.Algebra.Order.BigOperators.Group.List
import Mathlib.Data.List.ReduceOption
import HotSpot.G1.SparsePRTRefines

/-! # Iterating over the sparse hash table

One call goes on in the middle of three levels: the cards of an entry, the entries of a
chain, and the buckets. A call whose loop has not ended, or that reads an entry or a card
that is not there, has no answer.
-/

namespace HotSpot

/-- `_tbl_ind` and `_card_ind` are signed, and `_card_ind` is a `short`. -/
structure RSHashTableIter where
  tblInd : Int
  blInd : Option Nat
  cardInd : Int
  heapBotCardInd : Nat
  deriving DecidableEq, Repr

namespace RSHashTable

/-- An entry that is in the array. -/
def entryAt (t : RSHashTable) (i : Nat) : Option SparsePRTEntry :=
  if i < t.capacity then some (t.entries i) else none

end RSHashTable

namespace SparsePRTEntry

/-- A card that is in the entry: `none` in it is `NullEntry`. -/
def card (e : SparsePRTEntry) (i : Int) : Option (Option Nat) :=
  if 0 ≤ i then e.cards[i.toNat]? else none

/-- `r_ind` as a number. -/
def rInd (e : SparsePRTEntry) : Int := (e.regionInd.map fun r => (r : Int)).getD (-1)

end SparsePRTEntry

namespace RSHashTableIter

def toShort (x : Int) : Int := x.bmod (2 ^ 16)

def toInt (x : Int) : Int := x.bmod (2 ^ 32)

/-- The iterator that `init` leaves. -/
def init (cardsNum heapBotCardInd : Nat) : RSHashTableIter :=
  ⟨-1, none, toShort ((cardsNum : Int) - 1), heapBotCardInd⟩

variable (cardsNum cardsPerRegion : Nat) (t : RSHashTable)

/-- `find_first_card_in_list` from a place in a chain: the card, and the entry it is in. -/
def findFirstCardInList : Nat → Option Nat → Option (Option Nat × Option Nat)
  | _, none => some (none, none)
  | 0, some _ => none
  | fuel + 1, some blInd => do
      let e ← t.entryAt blInd
      match ← e.card 0 with
      | some res => return (some res, some blInd)
      | none => findFirstCardInList fuel e.nextIndex

/-- The product is one of `int`s, the sum one of `size_t`s. -/
def computeCardInd (iter : RSHashTableIter) (ci : Nat) : Option Nat := do
  let blInd ← iter.blInd
  let e ← t.entryAt blInd
  return ((iter.heapBotCardInd + toInt (e.rInd * cardsPerRegion) + ci) % 2 ^ 64).toNat

/-- The loop over the buckets. -/
def searchBuckets : Nat → RSHashTableIter → Option (Option Nat × RSHashTableIter)
  | 0, _ => none
  | fuel + 1, iter =>
    if iter.tblInd.toNat < t.capacity then do
      let (ci, blInd) ← findFirstCardInList t t.capacity (t.buckets iter.tblInd.toNat)
      let iter := { iter with blInd := blInd }
      match ci with
      | some ci => return (some (← computeCardInd cardsPerRegion t iter ci), iter)
      | none => searchBuckets fuel { iter with tblInd := iter.tblInd + 1 }
    else some (none, iter)

/-- What `has_next` does behind the last card of an entry: find the next valid entry. -/
def findNextEntry (iter : RSHashTableIter) : Option (Option Nat × RSHashTableIter) := do
  let iter := { iter with cardInd := 0 }
  let (ci, blInd) ← match iter.blInd with
    | none => some (none, none)
    | some blInd => do
        let e ← t.entryAt blInd
        findFirstCardInList t t.capacity e.nextIndex
  let iter := { iter with blInd := blInd }
  match ci with
  | some ci => return (some (← computeCardInd cardsPerRegion t iter ci), iter)
  | none =>
    searchBuckets cardsPerRegion t (t.capacity + 1) { iter with tblInd := iter.tblInd + 1 }

/-- `RSHashTableIter::has_next`: the card index if there is a next one. -/
def hasNext (iter : RSHashTableIter) : Option (Option Nat × RSHashTableIter) := do
  let iter := { iter with cardInd := toShort (iter.cardInd + 1) }
  let ci ← if iter.cardInd < (cardsNum : Int) then do
      let e ← t.entryAt (← iter.blInd)
      e.card iter.cardInd
    else some none
  match ci with
  | some ci => return (some (← computeCardInd cardsPerRegion t iter ci), iter)
  | none => findNextEntry cardsPerRegion t iter

/-- What the calls yield until one returns `false`. -/
def yielded : Nat → RSHashTableIter → Option (List Nat)
  | 0, _ => none
  | fuel + 1, iter => do
      match ← hasNext cardsNum cardsPerRegion t iter with
      | (none, _) => return []
      | (some cardIndex, iter) => return cardIndex :: (← yielded fuel iter)

end RSHashTableIter

/-! ## Reachable tables -/

namespace RSHashTable

/-- The tables that the operations lead to. An entry that is added has cards in it, as
those of a table have. -/
inductive Reachable (n : Nat) : RSHashTable → Prop where
  | new {capacity : Nat} (hcapacity : 0 < capacity) : Reachable n (.fresh n capacity)
  | addCard {t t' : RSHashTable} {r c : Nat} {added : Bool} (ht : Reachable n t)
      (hadd : t.addCard n r c = some (added, t')) : Reachable n t'
  | addEntry {t t' : RSHashTable} {r : Nat} {cards : List Nat} (ht : Reachable n t)
      (hnodup : cards.Nodup) (hlength : cards.length ≤ n) (hcards : cards ≠ [])
      (hadd : t.addEntry n r (SparsePRTEntry.filled n cards) = some t') : Reachable n t'
  | deleteEntry {t t' : RSHashTable} {r : Nat} {deleted : Bool} (ht : Reachable n t)
      (hdelete : t.deleteEntry r = some (deleted, t')) : Reachable n t'

def withOccupiedCards (t : RSHashTable) (count : Nat) : RSHashTable :=
  { t with occupiedCards := count }

section Count

variable (t : RSHashTable) (count : Nat)

theorem findIndex_withOccupiedCards (r fuel : Nat) (start : Option Nat) :
    (t.withOccupiedCards count).findIndex r fuel start = t.findIndex r fuel start := by
  induction fuel generalizing start with
  | zero => cases start <;> rfl
  | succ fuel ih =>
    cases start with
    | none => rfl
    | some i =>
      unfold findIndex
      rw [ih]
      rfl

theorem findLink_withOccupiedCards (r fuel : Nat) (prevLoc : LinkLoc) (start : Option Nat) :
    (t.withOccupiedCards count).findLink r fuel prevLoc start =
      t.findLink r fuel prevLoc start := by
  induction fuel generalizing prevLoc start with
  | zero => cases start <;> rfl
  | succ fuel ih =>
    cases start with
    | none => rfl
    | some i =>
      unfold findLink
      rw [ih]
      rfl

/-- The number of occupied cards plays no part in what becomes of the entries. -/
theorem create_withOccupiedCards (n r : Nat) :
    (t.withOccupiedCards count).entryForRegionIndCreate n r =
      (t.entryForRegionIndCreate n r).map fun p => (p.1, p.2.withOccupiedCards count) := by
  unfold entryForRegionIndCreate entryForRegionInd
  rw [findIndex_withOccupiedCards]
  change (t.findIndex r t.capacity (t.buckets (t.bucketIndex r))).bind _ = _
  cases t.findIndex r t.capacity (t.buckets (t.bucketIndex r)) with
  | none => rfl
  | some found =>
    cases found with
    | some i => rfl
    | none =>
      change (t.withOccupiedCards count).allocEntry.bind _ = Option.map _ (t.allocEntry.bind _)
      unfold allocEntry withOccupiedCards
      cases t.freeList with
      | some res => rfl
      | none =>
        simp only
        split
        · rfl
        · rfl

theorem addCard_withOccupiedCards {n r c : Nat} {added : Bool} {t' : RSHashTable}
    (hadd : t.addCard n r c = some (added, t')) :
    ∃ count', (t.withOccupiedCards count).addCard n r c =
      some (added, t'.withOccupiedCards count') := by
  unfold RSHashTable.addCard at hadd ⊢
  rw [create_withOccupiedCards]
  cases hcreate : t.entryForRegionIndCreate n r with
  | none =>
    rw [hcreate] at hadd
    cases hadd
  | some p =>
    obtain ⟨i, t₁⟩ := p
    rw [hcreate] at hadd
    simp only [Option.bind_eq_bind, Option.bind_some, Option.map_some, Option.pure_def,
      Option.some.injEq, Prod.mk.injEq] at hadd ⊢
    obtain ⟨rfl, rfl⟩ := hadd
    by_cases hres : ((t₁.entries i).addCard c).1 = .added
    · exact ⟨count + 1, rfl, by simp only [withOccupiedCards, hres, if_true]; rfl⟩
    · exact ⟨count, rfl, by simp only [withOccupiedCards, hres, if_false]; rfl⟩

theorem deleteEntry_withOccupiedCards {r : Nat} {deleted : Bool} {t' : RSHashTable}
    (hdelete : t.deleteEntry r = some (deleted, t')) :
    ∃ count', (t.withOccupiedCards count).deleteEntry r =
      some (deleted, t'.withOccupiedCards count') := by
  unfold RSHashTable.deleteEntry at hdelete ⊢
  simp only [findLink_withOccupiedCards]
  change ∃ count', (t.findLink r t.capacity (.bucket (t.bucketIndex r))
    (t.buckets (t.bucketIndex r))).bind _ = _
  cases hfind : t.findLink r t.capacity (.bucket (t.bucketIndex r))
      (t.buckets (t.bucketIndex r)) with
  | none =>
    simp only [hfind] at hdelete
    cases hdelete
  | some found =>
    simp only [hfind, Option.bind_eq_bind, Option.bind_some] at hdelete ⊢
    cases found with
    | none =>
      obtain ⟨rfl, rfl⟩ := Prod.mk.inj (Option.some.inj hdelete)
      exact ⟨count, rfl⟩
    | some link =>
      obtain ⟨prevLoc, i⟩ := link
      obtain ⟨rfl, rfl⟩ := Prod.mk.inj (Option.some.inj hdelete)
      refine ⟨count -
        ((t.setLink prevLoc (t.entries i).nextIndex).entries i).numValidCards, ?_⟩
      cases prevLoc <;> rfl

end Count

section Invariant

variable {n : Nat} {t t' : RSHashTable} {slots : Slots} {m : Nat → Option (List Nat)} {r : Nat}

/-- An entry was given to a region that has none only where there was room. -/
theorem Layout.room_of_create (h : Layout n t slots m) {p : Nat × RSHashTable}
    (hcreate : t.entryForRegionIndCreate n r = some p) (hm : m r = none) :
    slots.live.card + 1 < t.capacity := by
  unfold entryForRegionIndCreate entryForRegionInd at hcreate
  simp only [h.find_absent hm, Option.bind_eq_bind, Option.bind_some] at hcreate
  have hused := h.slotsUsed
  have hroom := h.room
  have hchain := h.freeChain
  cases hfree : slots.free with
  | nil =>
    rw [hfree] at hchain hused
    have hlist : t.freeList = none := hchain
    by_contra hfull
    unfold RSHashTable.allocEntry at hcreate
    rw [hlist] at hcreate
    simp only [List.length_nil] at hused
    rw [if_neg (by omega)] at hcreate
    cases hcreate
  | cons i free =>
    rw [hfree, List.length_cons] at hused
    omega

/-- A table that holds a map, however its cards are counted. -/
def Holds (n : Nat) (t : RSHashTable) (slots : Slots) (m : Nat → Option (List Nat)) : Prop :=
  ∃ count, Layout n (t.withOccupiedCards count) slots m

theorem Holds.addCard (h : Holds n t slots m) {c : Nat} {added : Bool}
    (hadd : t.addCard n r c = some (added, t')) :
    ∃ slots', Holds n t' slots'
      (Function.update m r (some (cardsAfter n ((m r).getD []) c).2)) := by
  obtain ⟨count, h⟩ := h
  obtain ⟨count', hadd'⟩ := addCard_withOccupiedCards t count hadd
  have hroom : m r = none → slots.live.card + 1 < (t.withOccupiedCards count).capacity := by
    intro hm
    cases hcreate : (t.withOccupiedCards count).entryForRegionIndCreate n r with
    | none =>
      unfold RSHashTable.addCard at hadd'
      rw [hcreate] at hadd'
      cases hadd'
    | some p => exact h.room_of_create hcreate hm
  obtain ⟨t₁, slots', hadd₁, h₁, -⟩ := h.addCard (r := r) (c := c) hroom
  obtain ⟨-, rfl⟩ := Prod.mk.inj (Option.some.inj (hadd₁.symm.trans hadd'))
  exact ⟨slots', count', h₁⟩

theorem Holds.addEntry (h : Holds n t slots m) {cards : List Nat} (hnodup : cards.Nodup)
    (hlength : cards.length ≤ n)
    (hadd : t.addEntry n r (SparsePRTEntry.filled n cards) = some t') :
    ∃ slots' m', Holds n t' slots' m' := by
  obtain ⟨count, h⟩ := h
  have hcreate' := create_withOccupiedCards t count n r
  unfold RSHashTable.addEntry at hadd
  cases hcreate : t.entryForRegionIndCreate n r with
  | none =>
    rw [hcreate] at hadd
    cases hadd
  | some p =>
    obtain ⟨i, t₁⟩ := p
    rw [hcreate, Option.map_some] at hcreate'
    obtain ⟨i', t₁', slots', hcreated, h₁, hi, hr, -⟩ :=
      h.create (r := r) (h.room_of_create hcreate')
    obtain ⟨rfl, rfl⟩ := Prod.mk.inj (Option.some.inj (hcreated.symm.trans hcreate'))
    rw [hcreate] at hadd
    obtain rfl := Option.some.inj hadd
    obtain ⟨old, hm, hold⟩ := h₁.cards_of_region hi hr
    -- The cards of the entry are among those that are counted.
    have hle : old.length ≤ (t₁.withOccupiedCards count).occupiedCards := by
      have hsum := Finset.add_sum_erase slots'.live (fun j =>
        ((t₁.withOccupiedCards count).entries j).numValidCards) hi
      rw [h₁.cardsCount, ← numValidCards_eq hold, ← hsum]
      exact Nat.le_add_right _ _
    have hcount : (t₁.withOccupiedCards count).occupiedCards - old.length + cards.length +
        old.length = (t₁.withOccupiedCards count).occupiedCards + cards.length := by omega
    exact ⟨slots', _, _, h₁.setCards hi hr hm hnodup hlength hcount⟩

theorem Holds.deleteEntry (h : Holds n t slots m) {deleted : Bool}
    (hdelete : t.deleteEntry r = some (deleted, t')) : ∃ slots' m', Holds n t' slots' m' := by
  obtain ⟨count, h⟩ := h
  obtain ⟨count', hdelete'⟩ := deleteEntry_withOccupiedCards t count hdelete
  cases hm : m r with
  | none =>
    rw [h.deleteEntry_absent hm] at hdelete'
    obtain ⟨-, heq⟩ := Prod.mk.inj (Option.some.inj hdelete')
    exact ⟨slots, m, count', heq ▸ h⟩
  | some cards =>
    obtain ⟨t₁, i, hdelete₁, -, h₁, -⟩ := h.deleteEntry_present hm
    obtain ⟨-, rfl⟩ := Prod.mk.inj (Option.some.inj (hdelete₁.symm.trans hdelete'))
    exact ⟨_, _, count', h₁⟩

theorem Reachable.holds (h : Reachable n t) : ∃ slots m, Holds n t slots m := by
  induction h with
  | new hcapacity => exact ⟨_, _, 0, Layout.fresh n hcapacity⟩
  | addCard _ hadd ih =>
    obtain ⟨slots, m, h⟩ := ih
    obtain ⟨slots', h'⟩ := h.addCard hadd
    exact ⟨slots', _, h'⟩
  | addEntry _ hnodup hlength _ hadd ih =>
    obtain ⟨slots, m, h⟩ := ih
    exact h.addEntry hnodup hlength hadd
  | deleteEntry _ hdelete ih =>
    obtain ⟨slots, m, h⟩ := ih
    exact h.deleteEntry hdelete

end Invariant

/-! ## The cards of a table -/

section Cards

variable {n : Nat} {t : RSHashTable} {slots : Slots} {m : Nat → Option (List Nat)} {r c i b : Nat}

/-- The cards of an entry, with its region. -/
def cardsAt (t : RSHashTable) (i : Nat) : List (Nat × Nat) :=
  (t.entries i).cards.reduceOption.map fun c => ((t.region i).getD 0, c)

/-- The cards of the entries on a chain. -/
def cardsOn (t : RSHashTable) (nodes : List Nat) : List (Nat × Nat) := nodes.flatMap t.cardsAt

/-- The cards of the buckets from one on. -/
def cardsFrom (t : RSHashTable) (slots : Slots) (b : Nat) : List (Nat × Nat) :=
  (List.range' b (t.capacity - b)).flatMap fun b => t.cardsOn (slots.chains b)

/-- What an entry of a chain holds. -/
structure EntryAt (n : Nat) (t : RSHashTable) (i r : Nat) (cards : List Nat) : Prop where
  lt : i < t.capacity
  region : t.region i = some r
  filled : (t.entries i).cards = SparsePRTEntry.filled n cards
  length : cards.length ≤ n

theorem reduceOption_filled (n : Nat) (cards : List Nat) :
    (SparsePRTEntry.filled n cards).reduceOption = cards := by
  unfold SparsePRTEntry.filled
  rw [List.reduceOption_append, List.reduceOption_replicate_none, List.append_nil]
  induction cards with
  | nil => rfl
  | cons c cards ih => rw [List.map_cons, List.reduceOption_cons_of_some, ih]

theorem getElem?_filled {cards : List Nat} (hlength : cards.length ≤ n) {j : Nat} (hj : j < n) :
    (SparsePRTEntry.filled n cards)[j]? = some cards[j]? := by
  unfold SparsePRTEntry.filled
  rcases Nat.lt_or_ge j cards.length with hlt | hge
  · rw [List.getElem?_append_left (by simpa using hlt), List.getElem?_map,
      List.getElem?_eq_getElem hlt]
    rfl
  · rw [List.getElem?_append_right (by simpa using hge), List.getElem?_eq_none hge,
      List.getElem?_replicate, if_pos (by simp; omega)]

theorem EntryAt.cardsAt_eq {cards : List Nat} (h : EntryAt n t i r cards) :
    t.cardsAt i = cards.map fun c => (r, c) := by
  unfold cardsAt
  rw [h.filled, reduceOption_filled, h.region, Option.getD_some]

theorem EntryAt.entryAt {cards : List Nat} (h : EntryAt n t i r cards) :
    t.entryAt i = some (t.entries i) := if_pos h.lt

theorem EntryAt.card {cards : List Nat} (h : EntryAt n t i r cards) {j : Nat} (hj : j < n) :
    (t.entries i).card j = some cards[j]? := by
  unfold SparsePRTEntry.card
  rw [if_pos (Int.natCast_nonneg j), Int.toNat_natCast, h.filled, getElem?_filled h.length hj]

theorem Holds.entry (h : Holds n t slots m) (hi : i ∈ slots.chains b) :
    ∃ r cards, m r = some cards ∧ t.bucketIndex r = b ∧ EntryAt n t i r cards := by
  obtain ⟨count, h⟩ := h
  obtain ⟨hlive, r, hr, hb⟩ := (h.memChain b i).mp hi
  obtain ⟨cards, hm, hcards⟩ := h.cards_of_region hlive hr
  exact ⟨r, cards, hm, hb, (h.liveBelow i hlive).trans h.room, hr, hcards,
    (h.distinct r cards hm).2⟩

theorem Holds.containsCard_iff (h : Holds n t slots m) :
    t.containsCard r c = some true ↔ ∃ cards, m r = some cards ∧ c ∈ cards := by
  obtain ⟨count, h⟩ := h
  unfold RSHashTable.containsCard RSHashTable.entryForRegionInd
  cases hm : m r with
  | none =>
    have hfind := h.find_absent hm
    rw [findIndex_withOccupiedCards] at hfind
    have hfind' : t.findIndex r t.capacity (t.buckets (t.bucketIndex r)) = some none := hfind
    simp [hfind']
  | some cards =>
    obtain ⟨i, -, -, hfilled, hfind⟩ := h.find_present hm
    rw [findIndex_withOccupiedCards] at hfind
    have hfind' : t.findIndex r t.capacity (t.buckets (t.bucketIndex r)) = some (some i) := hfind
    have hfilled' : (t.entries i).cards = SparsePRTEntry.filled n cards := hfilled
    simp [hfind', SparsePRTEntry.containsCard, hfilled', SparsePRTEntry.any_filled]

theorem bucketIndex_lt (hcapacity : 0 < t.capacity) (r : Nat) : t.bucketIndex r < t.capacity := by
  have hle : r &&& (t.capacity - 1) ≤ t.capacity - 1 := Nat.and_le_right
  unfold bucketIndex
  omega

/-- All cards of a table, each once. -/
theorem Holds.mem_cardsFrom (h : Holds n t slots m) :
    (r, c) ∈ t.cardsFrom slots 0 ↔ t.containsCard r c = some true := by
  rw [h.containsCard_iff]
  unfold cardsFrom cardsOn
  simp only [List.mem_flatMap, List.mem_range'_1]
  constructor
  · rintro ⟨b, -, i, hi, hmem⟩
    obtain ⟨r', cards, hm, -, hentry⟩ := h.entry hi
    rw [hentry.cardsAt_eq, List.mem_map] at hmem
    obtain ⟨c', hc', heq⟩ := hmem
    obtain ⟨rfl, rfl⟩ := Prod.mk.inj heq
    exact ⟨cards, hm, hc'⟩
  · rintro ⟨cards, hm, hc⟩
    obtain ⟨count, hlayout⟩ := h
    obtain ⟨i, hlive, hr⟩ := hlayout.slot r cards hm
    have hi := hlayout.memChain_of_region hlive hr
    obtain ⟨r', cards', hm', -, hentry⟩ := Holds.entry ⟨count, hlayout⟩ hi
    obtain rfl := Option.some.inj (hentry.region.symm.trans hr)
    obtain rfl := Option.some.inj (hm.symm.trans hm')
    have hcapacity : 0 < t.capacity := Nat.zero_lt_of_lt hentry.lt
    refine ⟨t.bucketIndex r', ⟨Nat.zero_le _, ?_⟩, i, hi, ?_⟩
    · rw [Nat.zero_add, Nat.sub_zero]
      exact bucketIndex_lt hcapacity r'
    · rw [hentry.cardsAt_eq]
      exact List.mem_map_of_mem hc

theorem Holds.nodup_cardsFrom (h : Holds n t slots m) : (t.cardsFrom slots 0).Nodup := by
  obtain ⟨count, hlayout⟩ := h
  have hentry : ∀ {b i}, i ∈ slots.chains b → _ := fun hi => Holds.entry ⟨count, hlayout⟩ hi
  refine List.nodup_flatMap.mpr ⟨fun b _ => List.nodup_flatMap.mpr ⟨fun i hi => ?_, ?_⟩, ?_⟩
  · obtain ⟨r, cards, hm, -, hat⟩ := hentry hi
    rw [hat.cardsAt_eq]
    exact (hlayout.distinct r cards hm).1.map fun c c' heq => (Prod.mk.inj heq).2
  · refine (hlayout.chainNodup b).pairwise_of_forall_ne fun i hi j hj hij => ?_
    intro p hpi hpj
    obtain ⟨r, cards, -, -, hat⟩ := hentry hi
    obtain ⟨r', cards', -, -, hat'⟩ := hentry hj
    rw [hat.cardsAt_eq, List.mem_map] at hpi
    rw [hat'.cardsAt_eq, List.mem_map] at hpj
    obtain ⟨c, -, rfl⟩ := hpi
    obtain ⟨c', -, heq⟩ := hpj
    obtain ⟨rfl, -⟩ := Prod.mk.inj heq
    exact hij (hlayout.oneSlot i (hlayout.live_of_memChain hi) j (hlayout.live_of_memChain hj)
      (hat.region.trans hat'.region.symm))
  · refine (List.nodup_range' ..).pairwise_of_forall_ne fun b _ b' _ hbb => ?_
    intro p hp hp'
    obtain ⟨i, hi, hpi⟩ := List.mem_flatMap.mp hp
    obtain ⟨j, hj, hpj⟩ := List.mem_flatMap.mp hp'
    obtain ⟨r, cards, -, hb, hat⟩ := hentry hi
    obtain ⟨r', cards', -, hb', hat'⟩ := hentry hj
    rw [hat.cardsAt_eq, List.mem_map] at hpi
    rw [hat'.cardsAt_eq, List.mem_map] at hpj
    obtain ⟨c, -, rfl⟩ := hpi
    obtain ⟨c', -, heq⟩ := hpj
    obtain ⟨rfl, -⟩ := Prod.mk.inj heq
    exact hbb (hb.symm.trans hb')

end Cards

end RSHashTable

/-! ## Iterating -/

namespace RSHashTableIter

open RSHashTable

variable {n cardsPerRegion heapBot : Nat} {t : RSHashTable} {slots : Slots}
  {m : Nat → Option (List Nat)}

theorem toShort_of_lt {x : Nat} (hx : x < 2 ^ 15) : toShort x = x :=
  Int.bmod_eq_of_le (by omega) (by omega)

/-- The index that is computed for a card. -/
def cardIndex (cardsPerRegion heapBot : Nat) (p : Nat × Nat) : Nat :=
  ((heapBot + toInt (p.1 * cardsPerRegion) + p.2) % 2 ^ 64 : Int).toNat

theorem computeCardInd_eq {r i : Nat} {cards : List Nat} (hentry : EntryAt n t i r cards)
    (tblInd cardInd : Int) (c : Nat) :
    computeCardInd cardsPerRegion t ⟨tblInd, some i, cardInd, heapBot⟩ c =
      some (cardIndex cardsPerRegion heapBot (r, c)) := by
  have hr : (t.entries i).regionInd = some r := hentry.region
  simp only [computeCardInd, Option.bind_eq_bind, Option.bind_some, hentry.entryAt,
    SparsePRTEntry.rInd, hr]
  rfl

/-- What is left of a chain. -/
structure Chain (n : Nat) (t : RSHashTable) (start : Option Nat) (nodes : List Nat) : Prop where
  segment : LinkedSegment t.next start nodes none
  entry : ∀ i ∈ nodes, ∃ r cards, EntryAt n t i r cards
  length : nodes.length ≤ t.capacity

theorem Chain.tail {start : Option Nat} {i : Nat} {nodes : List Nat}
    (h : Chain n t start (i :: nodes)) : start = some i ∧ Chain n t (t.next i) nodes :=
  ⟨h.segment.1, h.segment.2, fun j hj => h.entry j (List.mem_cons_of_mem i hj),
    (Nat.le_succ _).trans h.length⟩

theorem findFirstCardInList_some (t : RSHashTable) (fuel i : Nat) :
    findFirstCardInList t (fuel + 1) (some i) = (t.entryAt i).bind fun e => (e.card 0).bind
      fun res => match res with
        | some res => some (some res, some i)
        | none => findFirstCardInList t fuel e.nextIndex := rfl

/-- The first entry of a chain that has cards. -/
theorem findFirstCardInList_spec (hn : 0 < n) {fuel : Nat} {start : Option Nat} {nodes : List Nat}
    (h : Chain n t start nodes) (hfuel : nodes.length ≤ fuel) :
    (findFirstCardInList t fuel start = some (none, none) ∧ t.cardsOn nodes = []) ∨
    ∃ i r c cs rest, findFirstCardInList t fuel start = some (some c, some i) ∧
      EntryAt n t i r (c :: cs) ∧ Chain n t (t.next i) rest ∧
      t.cardsOn nodes = (r, c) :: (cs.map fun c => (r, c)) ++ t.cardsOn rest := by
  induction nodes generalizing fuel start with
  | nil =>
    obtain rfl : start = none := h.segment
    exact Or.inl ⟨by cases fuel <;> rfl, rfl⟩
  | cons i nodes ih =>
    obtain ⟨rfl, hrest⟩ := h.tail
    obtain ⟨fuel, rfl⟩ : ∃ k, fuel = k + 1 := ⟨fuel - 1, by simp at hfuel; omega⟩
    obtain ⟨r, cards, hentry⟩ := h.entry i List.mem_cons_self
    have hcard := hentry.card hn
    have hstep : findFirstCardInList t (fuel + 1) (some i) =
        match cards[0]? with
        | some res => some (some res, some i)
        | none => findFirstCardInList t fuel (t.next i) := by
      rw [findFirstCardInList_some, hentry.entryAt, Option.bind_some,
        show (0 : Int) = ((0 : Nat) : Int) from rfl, hcard]
      cases cards[0]? <;> rfl
    have hon : t.cardsOn (i :: nodes) = (cards.map fun c => (r, c)) ++ t.cardsOn nodes := by
      unfold cardsOn
      rw [List.flatMap_cons, hentry.cardsAt_eq]
    rw [hstep, hon]
    cases cards with
    | nil => exact ih hrest (by simpa using hfuel)
    | cons c cs => exact Or.inr ⟨i, r, c, cs, nodes, rfl, hentry, hrest, rfl⟩

/-- What the iterator has in front of it. -/
inductive Ahead (n : Nat) (t : RSHashTable) (slots : Slots) (heapBot : Nat) :
    RSHashTableIter → List (Nat × Nat) → Prop where
  | start : Ahead n t slots heapBot (init n heapBot) (t.cardsFrom slots 0)
  | inside {b i r c : Nat} {before cs nodes : List Nat}
      (hentry : EntryAt n t i r (before ++ c :: cs)) (hchain : Chain n t (t.next i) nodes) :
      Ahead n t slots heapBot ⟨b, some i, before.length, heapBot⟩
        ((cs.map fun c => (r, c)) ++ t.cardsOn nodes ++ t.cardsFrom slots (b + 1))

/-- A call yields the first of what is ahead. -/
def Yields (n cardsPerRegion heapBot : Nat) (t : RSHashTable) (slots : Slots)
    (result : Option (Option Nat × RSHashTableIter)) : List (Nat × Nat) → Prop
  | [] => ∃ iter, result = some (none, iter)
  | p :: rest => ∃ iter, result = some (some (cardIndex cardsPerRegion heapBot p), iter) ∧
      Ahead n t slots heapBot iter rest

theorem Yields.first {b i r c : Nat} {cs nodes : List Nat} (hentry : EntryAt n t i r (c :: cs))
    (hchain : Chain n t (t.next i) nodes) :
    Yields n cardsPerRegion heapBot t slots
      (some (some (cardIndex cardsPerRegion heapBot (r, c)), ⟨b, some i, 0, heapBot⟩))
      ((r, c) :: (cs.map fun c => (r, c)) ++ t.cardsOn nodes ++ t.cardsFrom slots (b + 1)) :=
  have hentry' : EntryAt n t i r ([] ++ c :: cs) := hentry
  ⟨_, rfl, .inside hentry' hchain⟩

theorem cardsFrom_of_lt {b : Nat} (hb : b < t.capacity) :
    t.cardsFrom slots b = t.cardsOn (slots.chains b) ++ t.cardsFrom slots (b + 1) := by
  obtain ⟨d, hd⟩ := Nat.exists_eq_add_of_lt hb
  unfold cardsFrom
  rw [show t.capacity - b = d + 1 by omega, show t.capacity - (b + 1) = d by omega,
    List.range'_succ, List.flatMap_cons]

theorem cardsFrom_of_le {b : Nat} (hb : t.capacity ≤ b) : t.cardsFrom slots b = [] := by
  unfold cardsFrom
  rw [Nat.sub_eq_zero_of_le hb]
  rfl

theorem searchBuckets_yields (hn : 0 < n)
    (hchains : ∀ b, Chain n t (t.buckets b) (slots.chains b)) {fuel b : Nat}
    (hfuel : t.capacity - b < fuel) (blInd : Option Nat) :
    Yields n cardsPerRegion heapBot t slots
      (searchBuckets cardsPerRegion t fuel ⟨b, blInd, 0, heapBot⟩) (t.cardsFrom slots b) := by
  induction fuel generalizing b blInd with
  | zero => exact absurd hfuel (Nat.not_lt_zero _)
  | succ fuel ih =>
    unfold searchBuckets
    simp only [Int.toNat_natCast]
    split
    next hb =>
      rw [cardsFrom_of_lt hb]
      rcases findFirstCardInList_spec hn (hchains b) (hchains b).length with
        ⟨hfind, hnil⟩ | ⟨i, r, c, cs, rest, hfind, hentry, hchain, hcards⟩
      · simp only [hfind, Option.bind_eq_bind, Option.bind_some]
        rw [hnil, List.nil_append]
        exact ih (b := b + 1) (by omega) none
      · simp only [hfind, Option.bind_eq_bind, Option.bind_some, computeCardInd_eq hentry]
        rw [hcards]
        exact Yields.first hentry hchain
    next hb =>
      rw [cardsFrom_of_le (Nat.le_of_not_lt hb)]
      exact ⟨_, rfl⟩

/-- Past the cards of an entry: the rest of its chain, and the next buckets. -/
theorem findNextEntry_yields (hn : 0 < n)
    (hchains : ∀ b, Chain n t (t.buckets b) (slots.chains b)) {i b r : Nat} {cards nodes : List Nat}
    (hentry : EntryAt n t i r cards) (hchain : Chain n t (t.next i) nodes) (cardInd : Int) :
    Yields n cardsPerRegion heapBot t slots
      (findNextEntry cardsPerRegion t ⟨b, some i, cardInd, heapBot⟩)
      (t.cardsOn nodes ++ t.cardsFrom slots (b + 1)) := by
  unfold findNextEntry
  simp only [hentry.entryAt, Option.bind_eq_bind, Option.bind_some]
  rcases findFirstCardInList_spec hn hchain hchain.length with
    ⟨hfind, hnil⟩ | ⟨j, r', c, cs, rest, hfind, hentry', hchain', hcards⟩
  · rw [RSHashTable.next] at hfind
    simp only [hfind, Option.bind_some]
    rw [hnil, List.nil_append]
    exact searchBuckets_yields hn hchains (b := b + 1) (Nat.lt_succ_of_le (Nat.sub_le _ _)) none
  · rw [RSHashTable.next] at hfind
    simp only [hfind, Option.bind_some, computeCardInd_eq hentry']
    rw [hcards]
    exact Yields.first hentry' hchain'

theorem hasNext_yields (cardsPerRegion : Nat) (hn : 0 < n) (hshort : n < 2 ^ 15)
    (hchains : ∀ b, Chain n t (t.buckets b) (slots.chains b)) {iter : RSHashTableIter}
    {rest : List (Nat × Nat)} (h : Ahead n t slots heapBot iter rest) :
    Yields n cardsPerRegion heapBot t slots (hasNext n cardsPerRegion t iter) rest := by
  cases h with
  | start =>
    -- The first increment takes the card index to the end of an entry.
    have hlast : toShort (toShort ((n : Int) - 1) + 1) = n := by
      have hpred : toShort ((n : Int) - 1) = (n - 1 : Nat) := by
        rw [show (n : Int) - 1 = (n - 1 : Nat) by omega]
        exact toShort_of_lt (by omega)
      rw [hpred, show ((n - 1 : Nat) : Int) + 1 = (n : Nat) by omega]
      exact toShort_of_lt hshort
    unfold hasNext init
    simp only [hlast, Int.lt_irrefl, if_false, Option.bind_eq_bind, Option.bind_some]
    unfold findNextEntry
    simp only [Option.bind_eq_bind, Option.bind_some]
    exact searchBuckets_yields hn hchains (b := 0) (Nat.lt_succ_of_le (Nat.sub_le _ _)) none
  | @inside b i r c before cs nodes hentry hchain =>
    have hlength := hentry.length
    rw [List.length_append, List.length_cons] at hlength
    have hnext : toShort ((before.length : Int) + 1) = (before.length + 1 : Nat) := by
      rw [show (before.length : Int) + 1 = (before.length + 1 : Nat) by omega]
      exact toShort_of_lt (by omega)
    unfold hasNext
    simp only [hnext, Int.ofNat_lt]
    have hcard : (before ++ c :: cs)[before.length + 1]? = cs[0]? := by
      rw [List.getElem?_append_right (Nat.le_succ _), Nat.succ_sub (Nat.le_refl _), Nat.sub_self]
      rfl
    split
    next hlt =>
      simp only [Option.bind_eq_bind, Option.bind_some, hentry.entryAt, hentry.card hlt, hcard]
      cases cs with
      | nil => exact findNextEntry_yields hn hchains hentry hchain _
      | cons c' cs =>
        simp only [List.getElem?_cons_zero, computeCardInd_eq hentry, Option.bind_some]
        refine ⟨_, rfl, ?_⟩
        have hentry' : EntryAt n t i r ((before ++ [c]) ++ c' :: cs) := by
          rwa [List.append_assoc, List.singleton_append]
        have hinside : Ahead n t slots heapBot
            ⟨b, some i, ((before ++ [c]).length : Nat), heapBot⟩ _ :=
          .inside hentry' hchain
        rwa [List.length_append, List.length_singleton] at hinside
    next hge =>
      obtain rfl : cs = [] := List.length_eq_zero_iff.mp (by omega)
      exact findNextEntry_yields hn hchains hentry hchain _

/-- The calls yield what is ahead, and then return `false`. -/
theorem yielded_eq (cardsPerRegion : Nat) (hn : 0 < n) (hshort : n < 2 ^ 15)
    (hchains : ∀ b, Chain n t (t.buckets b) (slots.chains b)) {iter : RSHashTableIter}
    {rest : List (Nat × Nat)} (h : Ahead n t slots heapBot iter rest) :
    yielded n cardsPerRegion t (rest.length + 1) iter =
      some (rest.map (cardIndex cardsPerRegion heapBot)) := by
  induction rest generalizing iter with
  | nil =>
    obtain ⟨iter', hnext⟩ := hasNext_yields cardsPerRegion hn hshort hchains h
    unfold yielded
    rw [hnext]
    rfl
  | cons p rest ih =>
    obtain ⟨iter', hnext, h'⟩ :=
      hasNext_yields cardsPerRegion hn hshort hchains h
    unfold yielded
    rw [hnext]
    simp only [Option.bind_eq_bind, Option.bind_some, ih h', List.length_cons]
    rfl

/-! ## What is yielded -/

/-- The global index of a card: `p` is a region and a card in it. -/
def globalCardIndex (cardsPerRegion heapBot : Nat) (p : Nat × Nat) : Nat :=
  heapBot + p.1 * cardsPerRegion + p.2

/-- The calls yield the index of each card in the table once, before one returns `false`. -/
def Iterates (n cardsPerRegion heapBot : Nat) (t : RSHashTable) : Prop :=
  ∃ pairs : List (Nat × Nat), pairs.Nodup ∧
    (∀ r c, (r, c) ∈ pairs ↔ t.containsCard r c = some true) ∧
    yielded n cardsPerRegion t (pairs.length + 1) (init n heapBot) =
      some (pairs.map (globalCardIndex cardsPerRegion heapBot))

/-- A region and a card of a heap. -/
structure InHeap (cardsPerRegion heapBot : Nat) (p : Nat × Nat) : Prop where
  region : p.1 < 2 ^ 31
  card : p.2 < cardsPerRegion
  cards : cardsPerRegion < 2 ^ 31
  heap : heapBot < 2 ^ 55

namespace InHeap

variable {p : Nat × Nat}

theorem product_lt (h : InHeap cardsPerRegion heapBot p) : p.1 * cardsPerRegion < 2 ^ 62 :=
  (Nat.mul_lt_mul'' h.region h.cards).trans_le (by norm_num)

theorem globalCardIndex_lt (h : InHeap cardsPerRegion heapBot p) :
    globalCardIndex cardsPerRegion heapBot p < 2 ^ 63 := by
  have hproduct := h.product_lt
  obtain ⟨-, hcard, hcards, hheap⟩ := h
  unfold globalCardIndex
  omega

theorem cardIndex_eq (h : InHeap cardsPerRegion heapBot p)
    (hproduct : p.1 * cardsPerRegion < 2 ^ 31) :
    cardIndex cardsPerRegion heapBot p = globalCardIndex cardsPerRegion heapBot p := by
  obtain ⟨-, hcard, hcards, hheap⟩ := h
  have hint : toInt ((p.1 : Int) * cardsPerRegion) = (p.1 * cardsPerRegion : Nat) := by
    rw [← Int.natCast_mul]
    exact Int.bmod_eq_of_le (by omega) (by omega)
  unfold cardIndex globalCardIndex
  rw [hint]
  omega

/-- The product of a region too far up is too small, or the sum wraps around. -/
theorem cardIndex_lt (h : InHeap cardsPerRegion heapBot p)
    (hproduct : 2 ^ 31 ≤ p.1 * cardsPerRegion)
    (hlt : cardIndex cardsPerRegion heapBot p < 2 ^ 63) :
    cardIndex cardsPerRegion heapBot p < globalCardIndex cardsPerRegion heapBot p := by
  have hbound := h.product_lt
  obtain ⟨-, hcard, hcards, hheap⟩ := h
  unfold cardIndex at hlt ⊢
  unfold globalCardIndex
  have hle : -(2 ^ 31) ≤ toInt ((p.1 : Int) * cardsPerRegion) := Int.le_bmod (by norm_num)
  have hint : toInt ((p.1 : Int) * cardsPerRegion) < 2 ^ 31 := Int.bmod_lt (by norm_num)
  generalize toInt ((p.1 : Int) * cardsPerRegion) = w at *
  omega

end InHeap

theorem chain_of_holds (h : Holds n t slots m) (b : Nat) :
    Chain n t (t.buckets b) (slots.chains b) := by
  obtain ⟨count, hlayout⟩ := h
  refine ⟨hlayout.chain b, fun i hi => ?_, hlayout.length_chain_le b⟩
  obtain ⟨r, cards, -, -, hentry⟩ := RSHashTable.Holds.entry ⟨count, hlayout⟩ hi
  exact ⟨r, cards, hentry⟩

/-- With too many cards in an entry the card index does not start at the last of them, and
the first call reads an entry that is not there. -/
theorem hasNext_init_none (hlong : 2 ^ 15 ≤ n) :
    hasNext n cardsPerRegion t (init n heapBot) = none := by
  have hlt : toShort (toShort ((n : Int) - 1) + 1) < n := by
    have hshort : toShort (toShort ((n : Int) - 1) + 1) < 2 ^ 15 := Int.bmod_lt (by norm_num)
    omega
  unfold hasNext init
  simp only [hlt, if_true]
  rfl

/-- The iteration is exact just when the number of cards in an entry fits in a `short`, and
the first card of each region that is in the table in an `int`. -/
theorem iterates_iff (g1RSetSparseRegionEntries : BitVec 64)
    (ht : Reachable (SparsePRTEntry.cardsNum g1RSetSparseRegionEntries) t)
    (hheap : ∀ r c, t.containsCard r c = some true → InHeap cardsPerRegion heapBot (r, c)) :
    Iterates (SparsePRTEntry.cardsNum g1RSetSparseRegionEntries) cardsPerRegion heapBot t ↔
      SparsePRTEntry.cardsNum g1RSetSparseRegionEntries < 2 ^ 15 ∧
        ∀ r c, t.containsCard r c = some true → r * cardsPerRegion < 2 ^ 31 := by
  have hn := SparsePRTEntry.cardsNum_pos g1RSetSparseRegionEntries
  generalize SparsePRTEntry.cardsNum g1RSetSparseRegionEntries = n at *
  obtain ⟨slots, m, hholds⟩ := ht.holds
  have hmem : ∀ r c, (r, c) ∈ t.cardsFrom slots 0 ↔ t.containsCard r c = some true :=
    fun r c => hholds.mem_cardsFrom
  constructor
  · rintro ⟨pairs, hnodup, hpairs, hyielded⟩
    have hshort : n < 2 ^ 15 := by
      by_contra hlong
      unfold yielded at hyielded
      rw [hasNext_init_none (Nat.le_of_not_lt hlong)] at hyielded
      cases hyielded
    refine ⟨hshort, fun r c hrc => ?_⟩
    have hperm : (t.cardsFrom slots 0).Perm pairs :=
      (List.perm_ext_iff_of_nodup hholds.nodup_cardsFrom hnodup).mpr fun ⟨r, c⟩ =>
        (hmem r c).trans (hpairs r c).symm
    have hstart : Ahead n t slots heapBot (init n heapBot) (t.cardsFrom slots 0) := .start
    have hall := yielded_eq cardsPerRegion hn hshort (chain_of_holds hholds) hstart
    rw [hperm.length_eq, hyielded] at hall
    have hindices := Option.some.inj hall
    -- What is computed is what it should be in another order, and never larger.
    have hsum : ((t.cardsFrom slots 0).map (cardIndex cardsPerRegion heapBot)).sum =
        ((t.cardsFrom slots 0).map (globalCardIndex cardsPerRegion heapBot)).sum := by
      rw [← hindices]
      exact ((hperm.map _).sum_eq).symm
    have hlt : ∀ p ∈ t.cardsFrom slots 0, cardIndex cardsPerRegion heapBot p < 2 ^ 63 := by
      intro p hp
      have hp' : cardIndex cardsPerRegion heapBot p ∈
          pairs.map (globalCardIndex cardsPerRegion heapBot) := by
        rw [hindices]
        exact List.mem_map_of_mem hp
      obtain ⟨q, hq, heq⟩ := List.mem_map.mp hp'
      rw [← heq]
      exact (hheap q.1 q.2 ((hpairs q.1 q.2).mp hq)).globalCardIndex_lt
    by_contra hlarge
    refine Nat.ne_of_lt (List.sum_lt_sum _ _ (fun p hp => ?_)
      ⟨(r, c), (hmem r c).mpr hrc, ?_⟩) hsum
    · have hin := hheap p.1 p.2 ((hmem p.1 p.2).mp hp)
      rcases Nat.lt_or_ge (p.1 * cardsPerRegion) (2 ^ 31) with hp31 | hp31
      · exact (hin.cardIndex_eq hp31).le
      · exact (hin.cardIndex_lt hp31 (hlt p hp)).le
    · exact (hheap r c hrc).cardIndex_lt (Nat.le_of_not_lt hlarge) (hlt _ ((hmem r c).mpr hrc))
  · rintro ⟨hshort, hproducts⟩
    refine ⟨t.cardsFrom slots 0, hholds.nodup_cardsFrom, hmem, ?_⟩
    rw [yielded_eq cardsPerRegion hn hshort (chain_of_holds hholds) .start]
    refine congrArg some (List.map_congr_left fun p hp => ?_)
    have hp' := (hmem p.1 p.2).mp hp
    exact (hheap p.1 p.2 hp').cardIndex_eq (hproducts p.1 p.2 hp')

/-- A table with one card, in region 3. -/
def oneCard (n : Nat) : RSHashTable :=
  (((RSHashTable.fresh n 16).addCard n 3 7).map Prod.snd).getD (.fresh n 16)

theorem reachable_oneCard (n : Nat) : Reachable (n + 1) (oneCard (n + 1)) :=
  .addCard (r := 3) (c := 7) (.new (Nat.zero_lt_succ 15))
    (show (RSHashTable.fresh (n + 1) 16).addCard
    (n + 1) 3 7 = some (true, oneCard (n + 1)) from rfl)

/-- The table after `add_card`. -/
def added (t : RSHashTable) (r c : Nat) : RSHashTable :=
  ((t.addCard 4 r c).map Prod.snd).getD t

/-- Two cards of region 3, one of region 19 in the same bucket, and one of region 4. -/
def fourCards : RSHashTable := added (added (added (added (.fresh 4 16) 3 7) 19 1) 3 9) 4 2

theorem containsCard_fourCards : Reachable 4 fourCards ∧ ∀ r c,
    fourCards.containsCard r c = some true →
      (r, c) ∈ [(3, 7), (3, 9), (19, 1), (4, 2)] := by
  have hfirst : (RSHashTable.fresh 4 16).addCard 4 3 7 = some (true, _) := rfl
  have hsecond : (added (.fresh 4 16) 3 7).addCard 4 19 1 = some (true, _) := rfl
  have hthird : (added (added (.fresh 4 16) 3 7) 19 1).addCard 4 3 9 = some (true, _) := rfl
  have hfourth : (added (added (added (.fresh 4 16) 3 7) 19 1) 3 9).addCard 4 4 2 =
      some (true, fourCards) := rfl
  have hnew : Reachable 4 (.fresh 4 16) := .new (by decide)
  refine ⟨(((hnew.addCard hfirst).addCard hsecond).addCard hthird).addCard hfourth,
    fun r c hrc => ?_⟩
  have hfresh : Holds 4 (.fresh 4 16) _ _ := ⟨0, Layout.fresh 4 (by decide)⟩
  obtain ⟨slots, h⟩ := hfresh.addCard hfirst
  obtain ⟨slots, h⟩ := h.addCard hsecond
  obtain ⟨slots, h⟩ := h.addCard hthird
  obtain ⟨slots, h⟩ := h.addCard hfourth
  obtain ⟨cards, hm, hc⟩ := h.containsCard_iff.mp hrc
  by_cases h4 : r = 4
  · subst h4
    obtain rfl : [2] = cards := Option.some.inj hm
    simpa using hc
  by_cases h3 : r = 3
  · subst h3
    obtain rfl : [7, 9] = cards := Option.some.inj hm
    simpa using hc
  by_cases h19 : r = 19
  · subst h19
    obtain rfl : [1] = cards := Option.some.inj hm
    simpa using hc
  · rw [Function.update_of_ne h4, Function.update_of_ne h3, Function.update_of_ne h19,
      Function.update_of_ne h3] at hm
    cases hm

theorem iterates_fourCards : Iterates 4 2048 1000 fourCards := by
  obtain ⟨hreachable, hcards⟩ := containsCard_fourCards
  refine (iterates_iff 4 hreachable fun r c hrc => ?_).mpr ⟨by decide, fun r c hrc => ?_⟩
  · have hmem := hcards r c hrc
    simp only [List.mem_cons, Prod.mk.injEq, List.not_mem_nil, or_false] at hmem
    rcases hmem with ⟨rfl, rfl⟩ | ⟨rfl, rfl⟩ | ⟨rfl, rfl⟩ | ⟨rfl, rfl⟩ <;>
      exact ⟨by decide, by decide, by decide, by decide⟩
  · have hmem := hcards r c hrc
    simp only [List.mem_cons, Prod.mk.injEq, List.not_mem_nil, or_false] at hmem
    rcases hmem with ⟨rfl, -⟩ | ⟨rfl, -⟩ | ⟨rfl, -⟩ | ⟨rfl, -⟩ <;> decide

/-- Entries that hold 40000 cards: the first call fails. -/
theorem oneCard_not_iterates :
    SparsePRTEntry.cardsNum 40000 = 40000 ∧ Reachable 40000 (oneCard 40000) ∧
      (oneCard 40000).containsCard 3 7 = some true ∧
      hasNext 40000 2048 (oneCard 40000) (init 40000 1000) = none ∧
      ¬ Iterates 40000 2048 1000 (oneCard 40000) := by
  have hnone : hasNext 40000 2048 (oneCard 40000) (init 40000 1000) = none :=
    hasNext_init_none (by decide)
  refine ⟨by decide, reachable_oneCard 39999, by rfl, hnone, ?_⟩
  rintro ⟨pairs, -, -, hyielded⟩
  unfold yielded at hyielded
  rw [hnone] at hyielded
  cases hyielded

end RSHashTableIter

end HotSpot
