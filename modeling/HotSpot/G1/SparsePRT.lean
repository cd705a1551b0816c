import Mathlib.Algebra.Group.Nat.Defs
import Mathlib.Logic.Function.Basic
import Mathlib.Tactic.Common

/-! # The sparse remembered set

The sparse part of a region's remembered set maps other regions to short arrays
of cards. It is a hash table whose entries sit in one array and are chained by
their indices, with the deleted entries on a list through the same links.

An absent index, region or card is `none` where the code has `NullEntry`. A loop
over a chain carries the number of links it may follow; `none` is the answer of
a call whose loop has not ended by then, to which `alloc_entry` gave no entry, or
that asks for a table larger than `clear` guarantees.
-/

namespace HotSpot

/-- `cards_num`, from the flag `G1RSetSparseRegionEntries`. -/
def SparsePRTEntry.cardsNum (g1RSetSparseRegionEntries : BitVec 64) : Nat :=
  (max ((g1RSetSparseRegionEntries &&& ~~~3).setWidth 32).toInt 4).toNat

structure SparsePRTEntry where
  regionInd : Option Nat
  nextIndex : Option Nat
  cards : List (Option Nat)
deriving DecidableEq, Repr

namespace SparsePRTEntry

/-- What `memset` to `NullEntry` leaves in an entry. -/
def null (cardsNum : Nat) : SparsePRTEntry :=
  ⟨none, none, List.replicate cardsNum none⟩

def init (cardsNum regionInd : Nat) : SparsePRTEntry :=
  ⟨some regionInd, none, List.replicate cardsNum none⟩

def containsCard (e : SparsePRTEntry) (cardIndex : Nat) : Bool :=
  e.cards.any (· == some cardIndex)

def numValidCards (e : SparsePRTEntry) : Nat :=
  e.cards.countP (·.isSome)

inductive AddCardResult where
  | overflow
  | found
  | added
deriving DecidableEq, Repr

/-- The loop of `add_card` over the card array, whose length is a multiple of the
factor the code unrolls it by. -/
def addCardLoop (cardIndex : Nat) : List (Option Nat) → AddCardResult × List (Option Nat)
  | [] => (.overflow, [])
  | c :: cards =>
    if c = some cardIndex then (.found, c :: cards)
    else if c = none then (.added, some cardIndex :: cards)
    else ((addCardLoop cardIndex cards).1, c :: (addCardLoop cardIndex cards).2)

def addCard (e : SparsePRTEntry) (cardIndex : Nat) : AddCardResult × SparsePRTEntry :=
  ((addCardLoop cardIndex e.cards).1, { e with cards := (addCardLoop cardIndex e.cards).2 })

end SparsePRTEntry

structure RSHashTable where
  capacity : Nat
  occupiedEntries : Nat
  occupiedCards : Nat
  entries : Nat → SparsePRTEntry
  buckets : Nat → Option Nat
  freeRegion : Nat
  freeList : Option Nat

namespace RSHashTable

/-- What `clear` leaves in a table. -/
def fresh (cardsNum capacity : Nat) : RSHashTable where
  capacity := capacity
  occupiedEntries := 0
  occupiedCards := 0
  entries := fun _ => .null cardsNum
  buckets := fun _ => none
  freeRegion := 0
  freeList := none

/-- `clear`, which guarantees that the capacity is an `int`. -/
def clear (cardsNum : Nat) (t : RSHashTable) : Option RSHashTable :=
  if t.capacity ≤ 2 ^ 31 - 1 then some (fresh cardsNum t.capacity) else none

/-- The constructor, which calls `clear`. -/
def new (cardsNum capacity : Nat) : Option RSHashTable :=
  (fresh cardsNum capacity).clear cardsNum

/-- `region_ind & capacity_mask()`. -/
def bucketIndex (t : RSHashTable) (regionInd : Nat) : Nat :=
  regionInd &&& (t.capacity - 1)

def setEntry (t : RSHashTable) (i : Nat) (e : SparsePRTEntry) : RSHashTable :=
  { t with entries := Function.update t.entries i e }

def setBucket (t : RSHashTable) (b : Nat) (link : Option Nat) : RSHashTable :=
  { t with buckets := Function.update t.buckets b link }

def setNextIndex (t : RSHashTable) (i : Nat) (link : Option Nat) : RSHashTable :=
  t.setEntry i { t.entries i with nextIndex := link }

def setCards (t : RSHashTable) (i : Nat) (cards : List (Option Nat)) : RSHashTable :=
  t.setEntry i { t.entries i with cards := cards }

/-- The loop that looks for a region's entry along a chain. -/
def findIndex (t : RSHashTable) (regionInd : Nat) : Nat → Option Nat → Option (Option Nat)
  | _, none => some none
  | 0, some _ => none
  | fuel + 1, some curInd =>
    if (t.entries curInd).regionInd = some regionInd then some (some curInd)
    else t.findIndex regionInd fuel (t.entries curInd).nextIndex

/-- The index of the entry that `entry_for_region_ind` returns. -/
def entryForRegionInd (t : RSHashTable) (regionInd : Nat) : Option (Option Nat) :=
  t.findIndex regionInd t.capacity (t.buckets (t.bucketIndex regionInd))

def getEntry (t : RSHashTable) (regionInd : Nat) : Option (Option SparsePRTEntry) := do
  let found ← t.findIndex regionInd t.capacity (t.buckets (t.bucketIndex regionInd))
  return found.map t.entries

/-- `get_cards`: the cards it copies out, `none` when it returns `false`. -/
def getCards (t : RSHashTable) (regionInd : Nat) : Option (Option (List (Option Nat))) := do
  let found ← t.findIndex regionInd t.capacity (t.buckets (t.bucketIndex regionInd))
  return found.map fun curInd => (t.entries curInd).cards

def containsCard (t : RSHashTable) (regionInd cardIndex : Nat) : Option Bool := do
  let e ← t.entryForRegionInd regionInd
  return match e with
    | none => false
    | some i => (t.entries i).containsCard cardIndex

/-- The index that `alloc_entry` returns, `none` for `NullEntry`. -/
def allocEntry (t : RSHashTable) : Option (Nat × RSHashTable) :=
  match t.freeList with
  | some res => some (res, { t with freeList := (t.entries res).nextIndex })
  | none =>
    if t.freeRegion + 1 < t.capacity then
      some (t.freeRegion, { t with freeRegion := t.freeRegion + 1 })
    else none

def freeEntry (t : RSHashTable) (fi : Nat) : RSHashTable :=
  { t.setNextIndex fi t.freeList with freeList := some fi }

/-- A new entry for a region, put at the front of the region's chain. -/
def insertFront (cardsNum : Nat) (t : RSHashTable) (regionInd newInd : Nat) : RSHashTable :=
  let t := t.setEntry newInd (.init cardsNum regionInd)
  let ind := t.bucketIndex regionInd
  let t := t.setNextIndex newInd (t.buckets ind)
  { t.setBucket ind (some newInd) with occupiedEntries := t.occupiedEntries + 1 }

def entryForRegionIndCreate (cardsNum : Nat) (t : RSHashTable) (regionInd : Nat) :
    Option (Nat × RSHashTable) := do
  match ← t.entryForRegionInd regionInd with
  | some i => return (i, t)
  | none =>
    let (newInd, t) ← t.allocEntry
    return (newInd, t.insertFront cardsNum regionInd newInd)

def addCard (cardsNum : Nat) (t : RSHashTable) (regionInd cardIndex : Nat) :
    Option (Bool × RSHashTable) := do
  let (i, t) ← t.entryForRegionIndCreate cardsNum regionInd
  let (res, e) := (t.entries i).addCard cardIndex
  let t := t.setEntry i e
  let t := if res = .added then { t with occupiedCards := t.occupiedCards + 1 } else t
  return (res != .overflow, t)

/-- `add_entry`, for a valid entry with the given region and cards. -/
def addEntry (cardsNum : Nat) (t : RSHashTable) (regionInd : Nat) (cards : List (Option Nat)) :
    Option RSHashTable := do
  let (i, t) ← t.entryForRegionIndCreate cardsNum regionInd
  let t := t.setCards i cards
  return { t with occupiedCards := t.occupiedCards + (t.entries i).numValidCards }

/-- The link `prev_loc` points to: the head of a bucket or the link of an entry. -/
inductive LinkLoc where
  | bucket (b : Nat)
  | nextOf (i : Nat)
deriving DecidableEq, Repr

def setLink (t : RSHashTable) : LinkLoc → Option Nat → RSHashTable
  | .bucket b, link => t.setBucket b link
  | .nextOf i, link => t.setNextIndex i link

/-- The loop of `delete_entry`, which also keeps the link it came through. -/
def findLink (t : RSHashTable) (regionInd : Nat) :
    Nat → LinkLoc → Option Nat → Option (Option (LinkLoc × Nat))
  | _, _, none => some none
  | 0, _, some _ => none
  | fuel + 1, prevLoc, some curInd =>
    if (t.entries curInd).regionInd = some regionInd then some (some (prevLoc, curInd))
    else t.findLink regionInd fuel (.nextOf curInd) (t.entries curInd).nextIndex

/-- Splice an entry out of its chain and free it. -/
def spliceOut (t : RSHashTable) (prevLoc : LinkLoc) (curInd : Nat) : RSHashTable :=
  let t := t.setLink prevLoc (t.entries curInd).nextIndex
  let t := { t with occupiedCards := t.occupiedCards - (t.entries curInd).numValidCards }
  let t := t.freeEntry curInd
  { t with occupiedEntries := t.occupiedEntries - 1 }

def deleteEntry (t : RSHashTable) (regionInd : Nat) : Option (Bool × RSHashTable) := do
  let ind := t.bucketIndex regionInd
  match ← t.findLink regionInd t.capacity (.bucket ind) (t.buckets ind) with
  | none => return (false, t)
  | some (prevLoc, curInd) => return (true, t.spliceOut prevLoc curInd)

/-- One iteration of the loop of `expand`. -/
def transferEntry (cardsNum : Nat) (last next : RSHashTable) (i : Nat) : Option RSHashTable :=
  match (last.entries i).regionInd with
  | none => some next
  | some regionInd => next.addEntry cardsNum regionInd (last.entries i).cards

/-- The table that `expand` makes out of the last one. -/
def expand (cardsNum : Nat) (last : RSHashTable) : Option RSHashTable := do
  let next ← new cardsNum (last.capacity * 2)
  (List.range last.capacity).foldlM (transferEntry cardsNum last) next

end RSHashTable

/-- `_cur` is a table of its own only between an expansion and the next cleanup:
`none` says that it is the table `_next`. -/
structure SparsePRT where
  cur : Option RSHashTable
  next : RSHashTable
  expanded : Bool

namespace SparsePRT

def initialCapacity : Nat := 16

def new (cardsNum : Nat) : Option SparsePRT := do
  let next ← RSHashTable.new cardsNum initialCapacity
  return ⟨none, next, false⟩

def expand (cardsNum : Nat) (prt : SparsePRT) : Option SparsePRT := do
  let next ← prt.next.expand cardsNum
  -- A last table that is not `_cur` is deleted.
  return ⟨some (prt.cur.getD prt.next), next, true⟩

/-- The test that `add_card` starts with. -/
def expandIfFull (cardsNum : Nat) (prt : SparsePRT) : Option SparsePRT :=
  if prt.next.occupiedEntries * 2 > prt.next.capacity then prt.expand cardsNum else some prt

def addCard (cardsNum : Nat) (prt : SparsePRT) (regionId cardIndex : Nat) :
    Option (Bool × SparsePRT) := do
  let prt ← prt.expandIfFull cardsNum
  let (res, next) ← prt.next.addCard cardsNum regionId cardIndex
  return (res, { prt with next := next })

def deleteEntry (prt : SparsePRT) (regionId : Nat) : Option (Bool × SparsePRT) := do
  let (res, next) ← prt.next.deleteEntry regionId
  return (res, { prt with next := next })

def clear (cardsNum : Nat) (prt : SparsePRT) : Option SparsePRT := do
  let cur := prt.cur.getD prt.next
  let cur ← if cur.capacity ≠ initialCapacity then RSHashTable.new cardsNum initialCapacity
    else cur.clear cardsNum
  return { prt with cur := none, next := cur }

def cleanup (prt : SparsePRT) : SparsePRT :=
  { prt with cur := none, expanded := false }

def getCards (prt : SparsePRT) (regionId : Nat) := prt.next.getCards regionId

def getEntry (prt : SparsePRT) (regionId : Nat) := prt.next.getEntry regionId

def containsCard (prt : SparsePRT) (regionId cardIndex : Nat) :=
  prt.next.containsCard regionId cardIndex

/-- The operations a remembered set can be asked for. -/
inductive Operation where
  | addCard (regionId cardIndex : Nat)
  | deleteEntry (regionId : Nat)
  | clear
  | cleanup
deriving DecidableEq, Repr

/-- One operation, with what the call returns if it returns something. -/
def perform (cardsNum : Nat) (prt : SparsePRT) : Operation → Option (Option Bool × SparsePRT)
  | .addCard r c => (prt.addCard cardsNum r c).map fun (res, prt) => (some res, prt)
  | .deleteEntry r => (prt.deleteEntry r).map fun (res, prt) => (some res, prt)
  | .clear => (prt.clear cardsNum).map fun prt => (none, prt)
  | .cleanup => some (none, prt.cleanup)

/-- A run of operations, with what each of them returned. -/
def run (cardsNum : Nat) (prt : SparsePRT) :
    List Operation → Option (List (Option Bool) × SparsePRT)
  | [] => some ([], prt)
  | op :: ops => do
      let (res, prt) ← prt.perform cardsNum op
      let (results, prt) ← prt.run cardsNum ops
      return (res :: results, prt)

end SparsePRT

end HotSpot
