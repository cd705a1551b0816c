import Mathlib.Algebra.BigOperators.Group.Finset.Basic
import Mathlib.Data.Finset.Card
import Mathlib.Tactic.Linarith
import HotSpot.Lib.LinkedSegment
import HotSpot.G1.SparsePRT

/-! # The layout of the sparse hash table

What holds of a hash table between two operations. Its slots below the free
region are the live ones, each on the chain of its region's bucket, and the ones
on the free list. The live slots hold a map from regions to cards.
-/

namespace HotSpot

namespace SparsePRTEntry

theorem cardsNum_pos (g1RSetSparseRegionEntries : BitVec 64) :
    0 < cardsNum g1RSetSparseRegionEntries := by
  rw [cardsNum]
  omega

/-- The card array that holds the given cards, in the order they were added. -/
def filled (cardsNum : Nat) (cards : List Nat) : List (Option Nat) :=
  cards.map some ++ List.replicate (cardsNum - cards.length) none

variable {n : Nat} {cards : List Nat}

@[simp] theorem filled_nil : filled n [] = List.replicate n none := by simp [filled]

theorem any_filled {c : Nat} : (filled n cards).any (· == some c) = decide (c ∈ cards) := by
  rw [Bool.eq_iff_iff]
  simp [filled]

theorem countP_filled : (filled n cards).countP (·.isSome) = cards.length := by
  rw [filled, List.countP_append, List.countP_map, List.countP_replicate]
  simp

theorem addCardLoop_map_append {c : Nat} {rest : List (Option Nat)} (hc : c ∉ cards) :
    addCardLoop c (cards.map some ++ rest) =
      ((addCardLoop c rest).1, cards.map some ++ (addCardLoop c rest).2) := by
  induction cards with
  | nil => rfl
  | cons d cards ih =>
    have hd : d ≠ c := fun heq => hc (by simp [heq])
    have hrest : c ∉ cards := fun hmem => hc (List.mem_cons_of_mem _ hmem)
    simp only [List.map_cons, List.cons_append, addCardLoop, Option.some.injEq, hd, if_false,
      reduceCtorEq, ih hrest]

theorem addCardLoop_found {c : Nat} (hc : c ∈ cards) :
    addCardLoop c (filled n cards) = (.found, filled n cards) := by
  obtain ⟨before, after, rfl, hnot⟩ := List.eq_append_cons_of_mem hc
  rw [filled, List.map_append, List.append_assoc, addCardLoop_map_append hnot]
  simp [addCardLoop]

theorem addCardLoop_added {c : Nat} (hc : c ∉ cards) (hroom : cards.length < n) :
    addCardLoop c (filled n cards) = (.added, filled n (cards ++ [c])) := by
  obtain ⟨m, hm⟩ : ∃ m, n - cards.length = m + 1 := ⟨n - cards.length - 1, by omega⟩
  have hm' : n - (cards ++ [c]).length = m := by
    simp only [List.length_append, List.length_singleton]
    omega
  rw [filled, filled, addCardLoop_map_append hc, hm, hm']
  simp [List.replicate_succ, addCardLoop]

theorem addCardLoop_overflow {c : Nat} (hc : c ∉ cards) (hfull : n ≤ cards.length) :
    addCardLoop c (filled n cards) = (.overflow, filled n cards) := by
  rw [filled, addCardLoop_map_append hc, Nat.sub_eq_zero_of_le hfull]
  rfl

end SparsePRTEntry

namespace RSHashTable

/-- The link of each slot. -/
def next (t : RSHashTable) (i : Nat) : Option Nat := (t.entries i).nextIndex

/-- The region of each slot. -/
def region (t : RSHashTable) (i : Nat) : Option Nat := (t.entries i).regionInd

/-- The slots in use: the chain of each bucket, all the live slots, and the free list. -/
structure Slots where
  chains : Nat → List Nat
  live : Finset Nat
  free : List Nat

/-- The links run through the given slots. -/
structure Linked (t : RSHashTable) (slots : Slots) : Prop where
  chain : ∀ b, LinkedSegment t.next (t.buckets b) (slots.chains b) none
  chainNodup : ∀ b, (slots.chains b).Nodup
  memChain : ∀ b i, i ∈ slots.chains b ↔
    i ∈ slots.live ∧ ∃ r, t.region i = some r ∧ t.bucketIndex r = b
  freeChain : LinkedSegment t.next t.freeList slots.free none
  freeNodup : slots.free.Nodup
  freeNotLive : ∀ i ∈ slots.free, i ∉ slots.live
  slotsUsed : t.freeRegion = slots.live.card + slots.free.length
  liveBelow : ∀ i ∈ slots.live, i < t.freeRegion
  freeBelow : ∀ i ∈ slots.free, i < t.freeRegion
  unused : ∀ i, t.freeRegion ≤ i → t.region i = none
  room : t.freeRegion < t.capacity

/-- The live slots hold, for each region of `m`, its cards, and are counted. -/
structure Stores (n : Nat) (t : RSHashTable) (live : Finset Nat)
    (m : Nat → Option (List Nat)) : Prop where
  entry : ∀ i ∈ live, ∃ r cards, t.region i = some r ∧ m r = some cards ∧
    (t.entries i).cards = SparsePRTEntry.filled n cards
  slot : ∀ r cards, m r = some cards → ∃ i ∈ live, t.region i = some r
  oneSlot : ∀ i ∈ live, ∀ j ∈ live, t.region i = t.region j → i = j
  distinct : ∀ r cards, m r = some cards → cards.Nodup ∧ cards.length ≤ n
  entriesCount : t.occupiedEntries = live.card
  cardsCount : t.occupiedCards = ∑ i ∈ live, (t.entries i).numValidCards

/-- A table that holds, in the given slots, for each region of `m` its cards. -/
structure Layout (n : Nat) (t : RSHashTable) (slots : Slots) (m : Nat → Option (List Nat)) : Prop
    extends t.Linked slots, Stores n t slots.live m

section Links

variable (t : RSHashTable) (i j : Nat) (link : Option Nat)

@[simp] theorem next_setNextIndex :
    (t.setNextIndex i link).next = Function.update t.next i link := by
  funext k
  by_cases hk : k = i
  · subst hk
    simp [next, setNextIndex, setEntry]
  · simp [next, setNextIndex, setEntry, hk]

@[simp] theorem region_setNextIndex : (t.setNextIndex i link).region = t.region := by
  funext k
  by_cases hk : k = i
  · subst hk
    simp [region, setNextIndex, setEntry]
  · simp [region, setNextIndex, setEntry, hk]

@[simp] theorem cards_setNextIndex :
    ((t.setNextIndex i link).entries j).cards = (t.entries j).cards := by
  by_cases hj : j = i
  · subst hj
    simp [setNextIndex, setEntry]
  · simp [setNextIndex, setEntry, hj]

end Links

theorem numValidCards_eq {e : SparsePRTEntry} {n : Nat} {cards : List Nat}
    (hcards : e.cards = SparsePRTEntry.filled n cards) : e.numValidCards = cards.length := by
  rw [SparsePRTEntry.numValidCards, hcards, SparsePRTEntry.countP_filled]

section Walks

variable {t : RSHashTable} {r : Nat}

/-- The loop over a chain ends within its length, at the chain's first entry for the region. -/
theorem findIndex_eq {fuel : Nat} {start : Option Nat} {nodes : List Nat}
    (hlist : LinkedSegment t.next start nodes none) (hfuel : nodes.length ≤ fuel) :
    t.findIndex r fuel start = some (nodes.find? fun i => t.region i = some r) := by
  induction nodes generalizing fuel start with
  | nil =>
    obtain rfl : start = none := hlist
    cases fuel <;> rfl
  | cons i nodes ih =>
    obtain ⟨rfl, hrest⟩ := hlist
    obtain ⟨fuel, rfl⟩ : ∃ k, fuel = k + 1 := ⟨fuel - 1, by simp at hfuel; omega⟩
    rw [findIndex, List.find?_cons]
    by_cases hi : t.region i = some r
    · simp only [region] at hi
      simp [region, hi]
    · have hstep := ih hrest (by simpa using hfuel)
      simp only [region] at hi
      simp only [next] at hstep
      simp [region, hi, hstep]

/-- The link that the loop of `delete_entry` holds behind the given nodes. -/
def linkBehind (prevLoc : LinkLoc) (before : List Nat) : LinkLoc :=
  (before.getLast?.map LinkLoc.nextOf).getD prevLoc

theorem findLink_found {fuel i : Nat} {start : Option Nat} {prevLoc : LinkLoc}
    {before after : List Nat} (hlist : LinkedSegment t.next start (before ++ i :: after) none)
    (hfuel : (before ++ i :: after).length ≤ fuel) (hi : t.region i = some r)
    (hbefore : ∀ j ∈ before, t.region j ≠ some r) :
    t.findLink r fuel prevLoc start = some (some (linkBehind prevLoc before, i)) := by
  induction before generalizing fuel start prevLoc with
  | nil =>
    obtain ⟨rfl, -⟩ := hlist
    obtain ⟨fuel, rfl⟩ : ∃ k, fuel = k + 1 := ⟨fuel - 1, by simp at hfuel; omega⟩
    simp only [region] at hi
    simp [findLink, hi, linkBehind]
  | cons j before ih =>
    obtain ⟨rfl, hrest⟩ := hlist
    obtain ⟨fuel, rfl⟩ : ∃ k, fuel = k + 1 := ⟨fuel - 1, by simp at hfuel; omega⟩
    have hj := hbefore j List.mem_cons_self
    simp only [region] at hj
    have hstep := @ih _ _ (.nextOf j) hrest (by simpa using hfuel)
      fun k hk => hbefore k (List.mem_cons_of_mem _ hk)
    simp only [next] at hstep
    rw [findLink, if_neg hj, hstep]
    rw [linkBehind, linkBehind, List.getLast?_cons]
    cases before.getLast? <;> rfl

theorem findLink_absent {fuel : Nat} {start : Option Nat} {prevLoc : LinkLoc} {nodes : List Nat}
    (hlist : LinkedSegment t.next start nodes none) (hfuel : nodes.length ≤ fuel)
    (hnot : ∀ j ∈ nodes, t.region j ≠ some r) : t.findLink r fuel prevLoc start = some none := by
  induction nodes generalizing fuel start prevLoc with
  | nil =>
    obtain rfl : start = none := hlist
    cases fuel <;> rfl
  | cons j nodes ih =>
    obtain ⟨rfl, hrest⟩ := hlist
    obtain ⟨fuel, rfl⟩ : ∃ k, fuel = k + 1 := ⟨fuel - 1, by simp at hfuel; omega⟩
    have hj := hnot j List.mem_cons_self
    simp only [region] at hj
    rw [findLink, if_neg hj]
    exact ih hrest (by simpa using hfuel) fun k hk => hnot k (List.mem_cons_of_mem _ hk)

end Walks

namespace Linked

variable {t : RSHashTable} {slots : Slots}

theorem live_of_memChain (h : t.Linked slots) {b i : Nat} (hi : i ∈ slots.chains b) :
    i ∈ slots.live :=
  ((h.memChain b i).mp hi).1

theorem memChain_of_region (h : t.Linked slots) {r i : Nat} (hi : i ∈ slots.live)
    (hr : t.region i = some r) : i ∈ slots.chains (t.bucketIndex r) :=
  (h.memChain _ i).mpr ⟨hi, r, hr, rfl⟩

/-- A slot is on one chain only. -/
theorem chain_unique (h : t.Linked slots) {b b' i : Nat} (hi : i ∈ slots.chains b)
    (hi' : i ∈ slots.chains b') : b = b' := by
  obtain ⟨-, r, hr, rfl⟩ := (h.memChain b i).mp hi
  obtain ⟨-, r', hr', rfl⟩ := (h.memChain b' i).mp hi'
  rw [hr] at hr'
  rw [Option.some.inj hr']

theorem length_chain_le (h : t.Linked slots) (b : Nat) :
    (slots.chains b).length ≤ t.capacity := by
  have hsub : (slots.chains b).toFinset ⊆ slots.live := fun i hi =>
    h.live_of_memChain (List.mem_toFinset.mp hi)
  have hcard := Finset.card_le_card hsub
  rw [List.toFinset_card_of_nodup (h.chainNodup b)] at hcard
  have hused := h.slotsUsed
  have hroom := h.room
  omega

end Linked

namespace Stores

variable {n : Nat} {t : RSHashTable} {live : Finset Nat} {m : Nat → Option (List Nat)}

/-- The cards of a live slot. -/
theorem cards_of_region (h : Stores n t live m) {r i : Nat} (hi : i ∈ live)
    (hr : t.region i = some r) :
    ∃ cards, m r = some cards ∧ (t.entries i).cards = SparsePRTEntry.filled n cards := by
  obtain ⟨r', cards, hr', hm, hcards⟩ := h.entry i hi
  rw [hr] at hr'
  obtain rfl := Option.some.inj hr'
  exact ⟨cards, hm, hcards⟩

theorem region_ne_of_absent (h : Stores n t live m) {r : Nat} (hm : m r = none) :
    ∀ i ∈ live, t.region i ≠ some r := by
  intro i hi hr
  obtain ⟨cards, hcards, -⟩ := h.cards_of_region hi hr
  rw [hm] at hcards
  cases hcards

end Stores

namespace Layout

variable {n : Nat} {t : RSHashTable} {slots : Slots} {m : Nat → Option (List Nat)}

theorem fresh (n : Nat) {capacity : Nat} (hcapacity : 0 < capacity) :
    Layout n (.fresh n capacity) ⟨fun _ => [], ∅, []⟩ (fun _ => none) where
  chain _ := rfl
  chainNodup _ := List.nodup_nil
  memChain := by simp
  freeChain := rfl
  freeNodup := List.nodup_nil
  freeNotLive := by simp
  slotsUsed := rfl
  liveBelow := by simp
  freeBelow := by simp
  unused _ _ := rfl
  room := hcapacity
  entry := by simp
  slot := by simp
  oneSlot := by simp
  distinct := by simp
  entriesCount := rfl
  cardsCount := rfl

theorem find_absent (h : Layout n t slots m) {r : Nat} (hm : m r = none) :
    t.findIndex r t.capacity (t.buckets (t.bucketIndex r)) = some none := by
  rw [findIndex_eq (h.chain _) (h.length_chain_le _)]
  refine congrArg some (List.find?_eq_none.mpr fun i hi => ?_)
  simpa using h.region_ne_of_absent hm i (h.live_of_memChain hi)

/-- The entry that a search for a region of the map ends at. -/
theorem find_present (h : Layout n t slots m) {r : Nat} {cards : List Nat}
    (hm : m r = some cards) :
    ∃ i ∈ slots.live, t.region i = some r ∧
      (t.entries i).cards = SparsePRTEntry.filled n cards ∧
      t.findIndex r t.capacity (t.buckets (t.bucketIndex r)) = some (some i) := by
  obtain ⟨i, hi, hr⟩ := h.slot r cards hm
  obtain ⟨cards', hm', hcards⟩ := h.cards_of_region hi hr
  rw [hm] at hm'
  obtain rfl := Option.some.inj hm'
  refine ⟨i, hi, hr, hcards, ?_⟩
  rw [findIndex_eq (h.chain _) (h.length_chain_le _)]
  refine congrArg some ?_
  cases hfind : (slots.chains (t.bucketIndex r)).find? fun i => t.region i = some r with
  | none =>
    have hnone := List.find?_eq_none.mp hfind i (h.memChain_of_region hi hr)
    simp [hr] at hnone
  | some j =>
    have hj : t.region j = some r := by simpa using List.find?_some hfind
    have hlive := h.live_of_memChain (List.mem_of_find?_eq_some hfind)
    exact congrArg some (h.oneSlot j hlive i hi (hj.trans hr.symm))

end Layout

/-! ## Adding an entry -/

/-- `alloc_entry` took the slot `i` and left the free list `free`. -/
structure Allocated (t : RSHashTable) (slots : Slots) (i : Nat) (t' : RSHashTable)
    (free : List Nat) : Prop where
  same : t' = { t with freeList := t'.freeList, freeRegion := t'.freeRegion }
  notLive : i ∉ slots.live
  notFree : i ∉ free
  stillFree : ∀ j ∈ free, j ∈ slots.free
  nodup : free.Nodup
  chain : LinkedSegment t.next t'.freeList free none
  freeRegion : t'.freeRegion = max t.freeRegion (slots.live.card + 1)
  slotsUsed : t'.freeRegion = slots.live.card + 1 + free.length
  below : i < t'.freeRegion
  room : t'.freeRegion < t.capacity

variable {n : Nat} {t t' : RSHashTable} {slots : Slots} {m : Nat → Option (List Nat)}
  {free : List Nat} {i r : Nat}

theorem Layout.allocEntry (h : Layout n t slots m) (hroom : slots.live.card + 1 < t.capacity) :
    ∃ i t' free, t.allocEntry = some (i, t') ∧ Allocated t slots i t' free := by
  have hused := h.slotsUsed
  have hbound := h.room
  have hchain := h.freeChain
  cases hfree : slots.free with
  | nil =>
    rw [hfree] at hchain hused
    have hlist : t.freeList = none := hchain
    simp only [List.length_nil, Nat.add_zero] at hused
    have hfits : t.freeRegion + 1 < t.capacity := by omega
    refine ⟨t.freeRegion, { t with freeRegion := t.freeRegion + 1 }, [], ?_, ?_⟩
    · rw [RSHashTable.allocEntry, hlist]
      simp only [hfits, if_true]
    · constructor
      case notLive => exact fun hmem => Nat.lt_irrefl _ (h.liveBelow _ hmem)
      case chain => exact hlist
      all_goals simp [hused]
      all_goals omega
  | cons i free =>
    rw [hfree] at hchain hused
    obtain ⟨hlist, hrest⟩ := hchain
    have hnodup := h.freeNodup
    rw [hfree, List.nodup_cons] at hnodup
    have hi : i ∈ slots.free := by simp [hfree]
    simp only [List.length_cons] at hused
    refine ⟨i, { t with freeList := t.next i }, free, ?_, ?_⟩
    · rw [RSHashTable.allocEntry, hlist]
      rfl
    · constructor
      case notLive => exact h.freeNotLive i hi
      case notFree => exact hnodup.1
      case nodup => exact hnodup.2
      case stillFree =>
        intro j hj
        rw [hfree]
        exact List.mem_cons_of_mem _ hj
      case chain => exact hrest
      case below => exact h.freeBelow i hi
      case room => exact hbound
      all_goals simp only
      all_goals omega

/-- The slots after a new entry at the front of a bucket. -/
def Slots.insert (slots : Slots) (b i : Nat) (free : List Nat) : Slots where
  chains := Function.update slots.chains b (i :: slots.chains b)
  live := Insert.insert i slots.live
  free := free

theorem insertFront_eq (t : RSHashTable) (n r i : Nat) :
    t.insertFront n r i =
      { t with
        entries := Function.update t.entries i
          ⟨some r, t.buckets (t.bucketIndex r), List.replicate n none⟩
        buckets := Function.update t.buckets (t.bucketIndex r) (some i)
        occupiedEntries := t.occupiedEntries + 1 } := by
  simp [insertFront, setBucket, setNextIndex, setEntry, SparsePRTEntry.init, bucketIndex]

section Entries

variable {e : SparsePRTEntry} {j : Nat} (hentries : t'.entries = Function.update t.entries i e)

include hentries

theorem next_of_update : t'.next = Function.update t.next i e.nextIndex := by
  funext j
  by_cases hj : j = i
  · subst hj
    simp [next, hentries]
  · simp [next, hentries, hj]

theorem region_of_update : t'.region = Function.update t.region i e.regionInd := by
  funext j
  by_cases hj : j = i
  · subst hj
    simp [region, hentries]
  · simp [region, hentries, hj]

end Entries

section InsertFront

variable (halloc : Allocated t slots i t' free)

include halloc

theorem entries_insertFront :
    (t'.insertFront n r i).entries = Function.update t.entries i
      ⟨some r, t.buckets (t.bucketIndex r), List.replicate n none⟩ := by
  rw [insertFront_eq, halloc.same]
  rfl

theorem buckets_insertFront :
    (t'.insertFront n r i).buckets =
      Function.update t.buckets (t.bucketIndex r) (some i) := by
  rw [insertFront_eq, halloc.same]
  rfl

theorem bucketIndex_insertFront (k : Nat) :
    (t'.insertFront n r i).bucketIndex k = t.bucketIndex k := by
  rw [insertFront_eq, halloc.same]
  rfl

theorem region_insertFront :
    (t'.insertFront n r i).region = Function.update t.region i (some r) :=
  region_of_update (entries_insertFront halloc)

theorem region_insertFront_of_live {j : Nat} (hj : j ∈ slots.live) :
    (t'.insertFront n r i).region j = t.region j := by
  rw [region_insertFront halloc, Function.update_of_ne]
  rintro rfl
  exact halloc.notLive hj

theorem Linked.insertFront (h : t.Linked slots) :
    (t'.insertFront n r i).Linked (slots.insert (t.bucketIndex r) i free) := by
  have hnext := next_of_update (entries_insertFront (n := n) (r := r) halloc)
  have hnot : ∀ b, i ∉ slots.chains b := fun b hi => halloc.notLive (h.live_of_memChain hi)
  constructor
  case chain =>
    intro b
    rw [hnext, buckets_insertFront halloc]
    by_cases hb : b = t.bucketIndex r
    · subst hb
      simp only [Slots.insert, Function.update_self, LinkedSegment.cons_iff, true_and]
      exact (h.chain _).update (hnot _)
    · simp only [Slots.insert, Function.update_of_ne hb]
      exact (h.chain b).update (hnot b)
  case chainNodup =>
    intro b
    by_cases hb : b = t.bucketIndex r
    · subst hb
      simp only [Slots.insert, Function.update_self, List.nodup_cons]
      exact ⟨hnot _, h.chainNodup _⟩
    · simp only [Slots.insert, Function.update_of_ne hb]
      exact h.chainNodup b
  case memChain =>
    intro b j
    simp only [bucketIndex_insertFront halloc, Slots.insert, Finset.mem_insert]
    by_cases hj : j = i
    · subst hj
      simp only [region_insertFront halloc, Function.update_self, Option.some.injEq,
        exists_eq_left', true_or, true_and]
      by_cases hb : b = t.bucketIndex r
      · simp [hb]
      · simpa [hb, hnot b] using Ne.symm hb
    · simp only [region_insertFront halloc, Function.update_of_ne hj, hj, false_or, ← h.memChain]
      by_cases hb : b = t.bucketIndex r
      · simp [hb, hj]
      · simp [hb]
  case freeChain =>
    rw [hnext]
    exact halloc.chain.update halloc.notFree
  case freeNodup => exact halloc.nodup
  case freeNotLive =>
    intro j hj
    simp only [Slots.insert, Finset.mem_insert, not_or]
    refine ⟨?_, h.freeNotLive j (halloc.stillFree j hj)⟩
    rintro rfl
    exact halloc.notFree hj
  case slotsUsed =>
    simp only [Slots.insert, Finset.card_insert_of_notMem halloc.notLive]
    exact halloc.slotsUsed
  case liveBelow =>
    intro j hj
    change j < t'.freeRegion
    rcases Finset.mem_insert.mp hj with rfl | hj
    · exact halloc.below
    · rw [halloc.freeRegion]
      exact lt_max_of_lt_left (h.liveBelow j hj)
  case freeBelow =>
    intro j hj
    change j < t'.freeRegion
    rw [halloc.freeRegion]
    exact lt_max_of_lt_left (h.freeBelow j (halloc.stillFree j hj))
  case unused =>
    intro j hj
    have hle : t'.freeRegion ≤ j := hj
    have hne : j ≠ i := (halloc.below.trans_le hle).ne'
    rw [region_insertFront halloc, Function.update_of_ne hne]
    rw [halloc.freeRegion] at hle
    exact h.unused j ((le_max_left _ _).trans hle)
  case room =>
    have hcapacity : (t'.insertFront n r i).capacity = t.capacity := by
      rw [insertFront_eq, halloc.same]
    rw [hcapacity]
    exact halloc.room

theorem Stores.insertFront (h : Stores n t slots.live m) (hm : m r = none) :
    Stores n (t'.insertFront n r i) (Insert.insert i slots.live)
      (Function.update m r (some [])) := by
  have hself : (t'.insertFront n r i).region i = some r := by
    rw [region_insertFront halloc, Function.update_self]
  have hentry : (t'.insertFront n r i).entries i =
      ⟨some r, t.buckets (t.bucketIndex r), List.replicate n none⟩ := by
    rw [entries_insertFront halloc, Function.update_self]
  have hother : ∀ j ∈ slots.live, (t'.insertFront n r i).entries j = t.entries j := by
    intro j hj
    rw [entries_insertFront halloc, Function.update_of_ne]
    rintro rfl
    exact halloc.notLive hj
  have hlive : ∀ j ∈ slots.live, (t'.insertFront n r i).region j = t.region j := fun j hj =>
    region_insertFront_of_live halloc hj
  have habsent := h.region_ne_of_absent hm
  constructor
  case entry =>
    intro j hj
    rcases Finset.mem_insert.mp hj with rfl | hj
    · exact ⟨r, [], hself, Function.update_self .., by rw [hentry]; simp⟩
    · obtain ⟨k, cards, hk, hmk, hcards⟩ := h.entry j hj
      have hne : k ≠ r := by
        rintro rfl
        exact habsent j hj hk
      refine ⟨k, cards, (hlive j hj).trans hk, ?_, ?_⟩
      · rw [Function.update_of_ne hne, hmk]
      · rw [hother j hj, hcards]
  case slot =>
    intro k cards hk
    by_cases hkr : k = r
    · subst hkr
      exact ⟨i, Finset.mem_insert_self _ _, hself⟩
    · rw [Function.update_of_ne hkr] at hk
      obtain ⟨j, hj, hjk⟩ := h.slot k cards hk
      exact ⟨j, Finset.mem_insert_of_mem hj, (hlive j hj).trans hjk⟩
  case oneSlot =>
    intro j hj k hk hjk
    rcases Finset.mem_insert.mp hj with hji | hj' <;>
      rcases Finset.mem_insert.mp hk with hki | hk'
    · rw [hji, hki]
    · rw [hji, hself, hlive k hk'] at hjk
      exact absurd hjk.symm (habsent k hk')
    · rw [hki, hself, hlive j hj'] at hjk
      exact absurd hjk (habsent j hj')
    · rw [hlive j hj', hlive k hk'] at hjk
      exact h.oneSlot j hj' k hk' hjk
  case distinct =>
    intro k cards hk
    by_cases hkr : k = r
    · subst hkr
      rw [Function.update_self] at hk
      obtain rfl := Option.some.inj hk
      simp
    · rw [Function.update_of_ne hkr] at hk
      exact h.distinct k cards hk
  case entriesCount =>
    rw [Finset.card_insert_of_notMem halloc.notLive, ← h.entriesCount, insertFront_eq,
      halloc.same]
  case cardsCount =>
    have hnew : ((t'.insertFront n r i).entries i).numValidCards = 0 := by
      rw [hentry]
      simp [SparsePRTEntry.numValidCards, List.countP_replicate]
    have hcount : (t'.insertFront n r i).occupiedCards = t.occupiedCards := by
      rw [insertFront_eq, halloc.same]
    rw [Finset.sum_insert halloc.notLive, hnew, hcount, h.cardsCount, Nat.zero_add]
    exact Finset.sum_congr rfl fun j hj => by rw [hother j hj]

end InsertFront

theorem next_setCards (t : RSHashTable) (i : Nat) (cards : List (Option Nat)) :
    (t.setCards i cards).next = t.next := by
  rw [setCards, setEntry, next_of_update rfl]
  exact Function.update_eq_self i t.next

theorem region_setCards (t : RSHashTable) (i : Nat) (cards : List (Option Nat)) :
    (t.setCards i cards).region = t.region := by
  rw [setCards, setEntry, region_of_update rfl]
  exact Function.update_eq_self i t.region

theorem Linked.setCards (h : t.Linked slots) (i : Nat) (cards : List (Option Nat)) (count : Nat) :
    Linked { t.setCards i cards with occupiedCards := count } slots where
  chain b := by
    change LinkedSegment (t.setCards i cards).next _ _ _
    rw [next_setCards]
    exact h.chain b
  chainNodup := h.chainNodup
  memChain b j := by
    change _ ↔ _ ∧ ∃ r, (t.setCards i cards).region j = some r ∧ t.bucketIndex r = b
    rw [region_setCards]
    exact h.memChain b j
  freeChain := by
    change LinkedSegment (t.setCards i cards).next _ _ _
    rw [next_setCards]
    exact h.freeChain
  freeNodup := h.freeNodup
  freeNotLive := h.freeNotLive
  slotsUsed := h.slotsUsed
  liveBelow := h.liveBelow
  freeBelow := h.freeBelow
  unused j hj := by
    change (t.setCards i cards).region j = none
    rw [region_setCards]
    exact h.unused j hj
  room := h.room

theorem entries_setCards_of_ne {j : Nat} (hj : j ≠ i) (cards : List (Option Nat)) :
    (t.setCards i cards).entries j = t.entries j :=
  Function.update_of_ne hj _ _

theorem cards_setCards_self (t : RSHashTable) (i : Nat) (cards : List (Option Nat)) :
    ((t.setCards i cards).entries i).cards = cards := by
  simp [setCards, setEntry]

/-- Rewriting the cards of a region's slot. -/
theorem Stores.setCards (h : Stores n t slots.live m) {cards cards' : List Nat} {count : Nat}
    (hi : i ∈ slots.live) (hr : t.region i = some r) (hm : m r = some cards)
    (hnodup : cards'.Nodup) (hlength : cards'.length ≤ n)
    (hcount : count + cards.length = t.occupiedCards + cards'.length) :
    Stores n { t.setCards i (SparsePRTEntry.filled n cards') with occupiedCards := count }
      slots.live (Function.update m r (some cards')) := by
  have hregion : ∀ j, region { t.setCards i (SparsePRTEntry.filled n cards') with
      occupiedCards := count } j = t.region j := congrFun (region_setCards t i _)
  constructor
  case entry =>
    intro j hj
    by_cases hji : j = i
    · subst hji
      exact ⟨r, cards', (hregion j).trans hr, Function.update_self .., cards_setCards_self ..⟩
    · obtain ⟨k, old, hk, hmk, hold⟩ := h.entry j hj
      have hkr : k ≠ r := by
        rintro rfl
        exact hji (h.oneSlot j hj i hi (hk.trans hr.symm))
      refine ⟨k, old, (hregion j).trans hk, by rw [Function.update_of_ne hkr, hmk], ?_⟩
      exact (congrArg _ (entries_setCards_of_ne hji _)).trans hold
  case slot =>
    intro k old hk
    by_cases hkr : k = r
    · subst hkr
      exact ⟨i, hi, (hregion i).trans hr⟩
    · rw [Function.update_of_ne hkr] at hk
      obtain ⟨j, hj, hjk⟩ := h.slot k old hk
      exact ⟨j, hj, (hregion j).trans hjk⟩
  case oneSlot =>
    intro j hj k hk hjk
    rw [hregion, hregion] at hjk
    exact h.oneSlot j hj k hk hjk
  case distinct =>
    intro k old hk
    by_cases hkr : k = r
    · subst hkr
      rw [Function.update_self] at hk
      obtain rfl := Option.some.inj hk
      exact ⟨hnodup, hlength⟩
    · rw [Function.update_of_ne hkr] at hk
      exact h.distinct k old hk
  case entriesCount => exact h.entriesCount
  case cardsCount =>
    obtain ⟨old, hmi, hold⟩ := h.cards_of_region hi hr
    rw [hm] at hmi
    obtain rfl := Option.some.inj hmi
    have hsum := Finset.add_sum_erase slots.live (fun j => (t.entries j).numValidCards) hi
    have hsum' := Finset.add_sum_erase slots.live
      (fun j => ((t.setCards i (SparsePRTEntry.filled n cards')).entries j).numValidCards) hi
    have hsame : ∑ j ∈ slots.live.erase i,
        ((t.setCards i (SparsePRTEntry.filled n cards')).entries j).numValidCards =
        ∑ j ∈ slots.live.erase i, (t.entries j).numValidCards :=
      Finset.sum_congr rfl fun j hj => by rw [entries_setCards_of_ne (Finset.ne_of_mem_erase hj)]
    have hcards := h.cardsCount
    simp only [numValidCards_eq hold] at hsum
    simp only [numValidCards_eq (cards_setCards_self t i _), hsame] at hsum'
    change count =
      ∑ j ∈ slots.live, ((t.setCards i (SparsePRTEntry.filled n cards')).entries j).numValidCards
    omega

theorem Layout.setCards (h : Layout n t slots m) {cards cards' : List Nat} {count : Nat}
    (hi : i ∈ slots.live) (hr : t.region i = some r) (hm : m r = some cards)
    (hnodup : cards'.Nodup) (hlength : cards'.length ≤ n)
    (hcount : count + cards.length = t.occupiedCards + cards'.length) :
    Layout n { t.setCards i (SparsePRTEntry.filled n cards') with occupiedCards := count } slots
      (Function.update m r (some cards')) :=
  ⟨h.toLinked.setCards i _ count, h.toStores.setCards hi hr hm hnodup hlength hcount⟩

/-- A region that is not in the table gets an empty entry. -/
theorem Layout.create_absent (h : Layout n t slots m) (hm : m r = none)
    (hroom : slots.live.card + 1 < t.capacity) :
    ∃ i t' slots', t.entryForRegionIndCreate n r = some (i, t') ∧
      Layout n t' slots' (Function.update m r (some [])) ∧
      i ∈ slots'.live ∧ t'.region i = some r ∧ slots'.live.card = slots.live.card + 1 ∧
      t'.freeRegion = max t.freeRegion (slots.live.card + 1) ∧ t'.capacity = t.capacity ∧
      t'.occupiedCards = t.occupiedCards := by
  obtain ⟨i, t', free, hallocEntry, halloc⟩ := h.allocEntry hroom
  refine ⟨i, t'.insertFront n r i, slots.insert (t.bucketIndex r) i free, ?_,
    ⟨h.toLinked.insertFront halloc, h.toStores.insertFront halloc hm⟩,
    Finset.mem_insert_self _ _, ?_, Finset.card_insert_of_notMem halloc.notLive,
    halloc.freeRegion, ?_, ?_⟩
  · simp only [entryForRegionIndCreate, entryForRegionInd, h.find_absent hm, hallocEntry]
    rfl
  · rw [region_insertFront halloc, Function.update_self]
  · rw [insertFront_eq, halloc.same]
  · rw [insertFront_eq, halloc.same]

/-! ## Deleting an entry -/

/-- The slots after an entry is spliced out and freed. -/
def Slots.erase (slots : Slots) (i : Nat) : Slots where
  chains := fun b => (slots.chains b).erase i
  live := slots.live.erase i
  free := i :: slots.free

section SpliceOut

variable {prevLoc : LinkLoc}

@[simp] theorem region_setLink (link : Option Nat) :
    (t.setLink prevLoc link).region = t.region := by
  cases prevLoc with
  | bucket b => rfl
  | nextOf j => exact region_setNextIndex t j link

@[simp] theorem cards_setLink (link : Option Nat) (j : Nat) :
    ((t.setLink prevLoc link).entries j).cards = (t.entries j).cards := by
  cases prevLoc with
  | bucket b => rfl
  | nextOf k => exact cards_setNextIndex t k j link

theorem setLink_eq (link : Option Nat) :
    t.setLink prevLoc link =
      { t with
        entries := (t.setLink prevLoc link).entries
        buckets := (t.setLink prevLoc link).buckets } := by
  cases prevLoc <;> rfl

theorem next_spliceOut :
    (t.spliceOut prevLoc i).next =
      Function.update (t.setLink prevLoc (t.next i)).next i t.freeList := by
  have hfree : (t.setLink prevLoc (t.next i)).freeList = t.freeList := by rw [setLink_eq]
  rw [← hfree]
  exact next_setNextIndex _ i _

theorem buckets_spliceOut :
    (t.spliceOut prevLoc i).buckets = (t.setLink prevLoc (t.next i)).buckets := rfl

@[simp] theorem region_spliceOut : (t.spliceOut prevLoc i).region = t.region :=
  (region_setNextIndex _ i _).trans (region_setLink _)

@[simp] theorem cards_spliceOut (j : Nat) :
    ((t.spliceOut prevLoc i).entries j).cards = (t.entries j).cards :=
  (cards_setNextIndex _ i j _).trans (cards_setLink _ j)

theorem numValidCards_spliceOut (j : Nat) :
    ((t.spliceOut prevLoc i).entries j).numValidCards = (t.entries j).numValidCards :=
  congrArg (List.countP _) (cards_spliceOut j)

theorem spliceOut_counts :
    (t.spliceOut prevLoc i).occupiedEntries = t.occupiedEntries - 1 ∧
      (t.spliceOut prevLoc i).occupiedCards = t.occupiedCards - (t.entries i).numValidCards ∧
      (t.spliceOut prevLoc i).capacity = t.capacity ∧
      (t.spliceOut prevLoc i).freeRegion = t.freeRegion := by
  have hvalid : ((t.setLink prevLoc (t.entries i).nextIndex).entries i).numValidCards =
      (t.entries i).numValidCards := congrArg (List.countP _) (cards_setLink _ i)
  simp only [spliceOut, hvalid, freeEntry, setNextIndex, setEntry]
  rw [setLink_eq]
  simp

/-- Writing the link behind an entry takes it off its chain. -/
theorem Linked.setLink (h : t.Linked slots) {b : Nat} {before after : List Nat}
    (hchain : slots.chains b = before ++ i :: after) (b' : Nat) :
    LinkedSegment (t.setLink (linkBehind (.bucket b) before) (t.next i)).next
      ((t.setLink (linkBehind (.bucket b) before) (t.next i)).buckets b')
      ((slots.chains b').erase i) none := by
  have hseg := h.chain b
  have hnodup := h.chainNodup b
  rw [hchain] at hseg hnodup
  have hmem : i ∈ slots.chains b := by simp [hchain]
  have hbefore : i ∉ before := by
    simp only [List.nodup_append, List.mem_cons] at hnodup
    exact fun hi => hnodup.2.2 i hi i (Or.inl rfl) rfl
  have herase : (before ++ i :: after).erase i = before ++ after := by
    rw [List.erase_append_right _ hbefore, List.erase_cons_head]
  have hother : b' ≠ b → (slots.chains b').erase i = slots.chains b' := fun hb =>
    List.erase_of_not_mem fun hi => hb (h.chain_unique hi hmem)
  rcases List.eq_nil_or_concat' before with rfl | ⟨init, p, rfl⟩
  · change LinkedSegment t.next (Function.update t.buckets b (t.next i) b') _ _
    by_cases hb : b' = b
    · subst hb
      rw [Function.update_self, hchain, herase]
      exact hseg.2
    · rw [Function.update_of_ne hb, hother hb]
      exact h.chain b'
  · have hloc : linkBehind (.bucket b) (init ++ [p]) = .nextOf p := by simp [linkBehind]
    rw [hloc]
    change LinkedSegment (t.setNextIndex p (t.next i)).next (t.buckets b') _ _
    rw [next_setNextIndex]
    by_cases hb : b' = b
    · subst hb
      rw [hchain, herase]
      simp only [List.append_assoc, List.singleton_append] at hseg hnodup ⊢
      exact LinkedSegment.remove_after hnodup hseg
    · rw [hother hb]
      refine (h.chain b').update fun hp => hb (h.chain_unique hp ?_)
      simp [hchain]

/-- The free list is not touched by taking an entry off its chain. -/
theorem Linked.free_setLink (h : t.Linked slots) {b : Nat} {before after : List Nat}
    (hchain : slots.chains b = before ++ i :: after) :
    LinkedSegment (t.setLink (linkBehind (.bucket b) before) (t.next i)).next t.freeList
      slots.free none := by
  rcases List.eq_nil_or_concat' before with rfl | ⟨init, p, rfl⟩
  · exact h.freeChain
  · have hloc : linkBehind (.bucket b) (init ++ [p]) = .nextOf p := by simp [linkBehind]
    have hp : p ∈ slots.chains b := by simp [hchain]
    rw [hloc]
    change LinkedSegment (t.setNextIndex p (t.next i)).next _ _ _
    rw [next_setNextIndex]
    exact h.freeChain.update fun hfree => h.freeNotLive p hfree (h.live_of_memChain hp)

theorem Linked.spliceOut (h : t.Linked slots) {b : Nat} {before after : List Nat}
    (hchain : slots.chains b = before ++ i :: after) :
    (t.spliceOut (linkBehind (.bucket b) before) i).Linked (slots.erase i) := by
  have hmem : i ∈ slots.chains b := by simp [hchain]
  have hlive := h.live_of_memChain hmem
  have hnot : ∀ b', i ∉ (slots.chains b').erase i := fun b' =>
    (h.chainNodup b').not_mem_erase
  have hfree : i ∉ slots.free := fun hi => h.freeNotLive i hi hlive
  obtain ⟨-, -, hcapacity, hregion⟩ :=
    @spliceOut_counts t i (linkBehind (.bucket b) before)
  constructor
  case chain =>
    intro b'
    rw [next_spliceOut, buckets_spliceOut]
    exact (h.setLink hchain b').update (hnot b')
  case chainNodup => exact fun b' => (h.chainNodup b').erase i
  case memChain =>
    intro b' j
    have hindex : ∀ r, (t.spliceOut (linkBehind (.bucket b) before) i).bucketIndex r =
        t.bucketIndex r := by
      intro r
      rw [bucketIndex, bucketIndex, hcapacity]
    simp only [Slots.erase, (h.chainNodup b').mem_erase_iff, Finset.mem_erase, region_spliceOut,
      hindex, h.memChain b' j, and_assoc]
  case freeChain =>
    rw [next_spliceOut]
    refine ⟨rfl, ?_⟩
    rw [Function.update_self]
    exact (h.free_setLink hchain).update hfree
  case freeNodup => exact List.nodup_cons.mpr ⟨hfree, h.freeNodup⟩
  case freeNotLive =>
    intro j hj hj'
    rcases List.mem_cons.mp hj with rfl | hj
    · exact Finset.notMem_erase _ _ hj'
    · exact h.freeNotLive j hj (Finset.mem_of_mem_erase hj')
  case slotsUsed =>
    have hcard := Finset.card_erase_add_one hlive
    have hused := h.slotsUsed
    simp only [hregion, Slots.erase, List.length_cons]
    omega
  case liveBelow =>
    intro j hj
    rw [hregion]
    exact h.liveBelow j (Finset.mem_of_mem_erase hj)
  case freeBelow =>
    intro j hj
    rw [hregion]
    rcases List.mem_cons.mp hj with rfl | hj
    · exact h.liveBelow j hlive
    · exact h.freeBelow j hj
  case unused =>
    intro j hj
    rw [hregion] at hj
    rw [region_spliceOut]
    exact h.unused j hj
  case room =>
    rw [hregion, hcapacity]
    exact h.room

theorem Stores.spliceOut (h : Stores n t slots.live m) (hi : i ∈ slots.live)
    (hr : t.region i = some r) :
    Stores n (t.spliceOut prevLoc i) (slots.live.erase i) (Function.update m r none) := by
  obtain ⟨hentries, hcards, -, -⟩ := @spliceOut_counts t i prevLoc
  constructor
  case entry =>
    intro j hj
    obtain ⟨hji, hj⟩ := Finset.mem_erase.mp hj
    obtain ⟨k, cards, hk, hmk, hfilled⟩ := h.entry j hj
    have hkr : k ≠ r := by
      rintro rfl
      exact hji (h.oneSlot j hj i hi (hk.trans hr.symm))
    refine ⟨k, cards, by rw [region_spliceOut, hk], ?_, by rw [cards_spliceOut, hfilled]⟩
    rw [Function.update_of_ne hkr, hmk]
  case slot =>
    intro k cards hk
    have hkr : k ≠ r := by
      rintro rfl
      rw [Function.update_self] at hk
      cases hk
    rw [Function.update_of_ne hkr] at hk
    obtain ⟨j, hj, hjk⟩ := h.slot k cards hk
    refine ⟨j, Finset.mem_erase.mpr ⟨?_, hj⟩, by rw [region_spliceOut, hjk]⟩
    rintro rfl
    rw [hr] at hjk
    exact hkr (Option.some.inj hjk).symm
  case oneSlot =>
    intro j hj k hk hjk
    rw [region_spliceOut] at hjk
    exact h.oneSlot j (Finset.mem_of_mem_erase hj) k (Finset.mem_of_mem_erase hk) hjk
  case distinct =>
    intro k cards hk
    have hkr : k ≠ r := by
      rintro rfl
      rw [Function.update_self] at hk
      cases hk
    rw [Function.update_of_ne hkr] at hk
    exact h.distinct k cards hk
  case entriesCount =>
    rw [hentries, h.entriesCount, Finset.card_erase_of_mem hi]
  case cardsCount =>
    have hsum := Finset.add_sum_erase slots.live (fun j => (t.entries j).numValidCards) hi
    simp only [numValidCards_spliceOut, hcards, h.cardsCount]
    omega

end SpliceOut

theorem Layout.deleteEntry_absent (h : Layout n t slots m) (hm : m r = none) :
    t.deleteEntry r = some (false, t) := by
  have hfind := @findLink_absent t r _ _ (.bucket (t.bucketIndex r)) _ (h.chain (t.bucketIndex r))
    (h.length_chain_le _) fun j hj =>
      h.region_ne_of_absent hm j (h.live_of_memChain hj)
  simp only [RSHashTable.deleteEntry, hfind]
  rfl

theorem Layout.deleteEntry_present (h : Layout n t slots m) {cards : List Nat}
    (hm : m r = some cards) :
    ∃ t' i, t.deleteEntry r = some (true, t') ∧ i ∈ slots.live ∧
      Layout n t' (slots.erase i) (Function.update m r none) ∧
      t'.freeRegion = t.freeRegion ∧ t'.capacity = t.capacity := by
  obtain ⟨i, hi, hr⟩ := h.slot r cards hm
  obtain ⟨before, after, hchain, hbefore⟩ :=
    List.eq_append_cons_of_mem (h.memChain_of_region hi hr)
  have hseg := h.chain (t.bucketIndex r)
  have hlength := h.length_chain_le (t.bucketIndex r)
  rw [hchain] at hseg hlength
  have hfirst : ∀ j ∈ before, t.region j ≠ some r := by
    intro j hj hjr
    have hmem : j ∈ slots.chains (t.bucketIndex r) := by simp [hchain, hj]
    have hji := h.oneSlot j (h.live_of_memChain hmem) i hi (hjr.trans hr.symm)
    exact hbefore (hji ▸ hj)
  have hfind := @findLink_found t r _ _ _ (.bucket (t.bucketIndex r)) _ _ hseg hlength hr hfirst
  obtain ⟨-, -, hcapacity, hregion⟩ :=
    @spliceOut_counts t i (linkBehind (.bucket (t.bucketIndex r)) before)
  refine ⟨_, i, ?_, hi, ⟨h.toLinked.spliceOut hchain, h.toStores.spliceOut hi hr⟩, hregion,
    hcapacity⟩
  simp only [RSHashTable.deleteEntry, hfind]
  rfl

end RSHashTable

end HotSpot
