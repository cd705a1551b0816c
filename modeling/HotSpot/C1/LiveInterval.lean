import HotSpot.Lib.HalfOpen
import Mathlib

/-! # Live intervals of the linear scan allocator

`Range` and `Interval` of `c1_LinearScan.cpp` with the operations on the ranges and use positions
of an interval. The list of ranges is without its sentinel, which starts and ends at `max_jint`. An
assertion that fails is an error with its text.
-/

namespace HotSpot.C1

/-- `Range` -/
abbrev LiveRange := HalfOpen Int

def maxJint : Int := 2 ^ 31 - 1

/-- `Range::end()` -/
def rangeEnd : LiveRange := ⟨maxJint, maxJint⟩

/-- `IntervalUseKind` -/
inductive UseKind where
  | noUse | loopEndMarker | shouldHaveRegister | mustHaveRegister
  deriving DecidableEq, Repr

def UseKind.toInt : UseKind → Int
  | noUse => 0
  | loopEndMarker => 1
  | shouldHaveRegister => 2
  | mustHaveRegister => 3

/-- `firstValidKind` up to `lastValidKind` -/
def isValidKind (kind : Int) : Bool := 1 ≤ kind ∧ kind ≤ 3

/-- `LIR_OpVisitState::OprMode` -/
inductive OprMode where
  | inputMode | tempMode | outputMode
  deriving DecidableEq, Repr

/-- What the operations read and write of an `Interval`. -/
structure LiveInterval where
  regNum : Int
  ranges : List LiveRange
  /-- Positions and kinds in turn, the highest position first. -/
  usePosAndKinds : List Int
  /-- -1: not cached -/
  cachedTo : Int
  deriving DecidableEq, Repr

def assertThat (b : Bool) (message : String) : Except String Unit :=
  if b then .ok () else .error message

/-- `Range::intersects_at` -/
def rangesIntersectAt : List LiveRange → List LiveRange → Except String Int
  | [], _ | _, [] => .error "empty ranges not allowed"
  | r₁ :: next₁, r₂ :: next₂ =>
    if r₁.fromPos < r₂.fromPos then
      if r₁.toPos ≤ r₂.fromPos then
        if next₁ = [] then .ok (-1) else rangesIntersectAt next₁ (r₂ :: next₂)
      else .ok r₂.fromPos
    else if r₂.fromPos < r₁.fromPos then
      if r₂.toPos ≤ r₁.fromPos then
        if next₂ = [] then .ok (-1) else rangesIntersectAt (r₁ :: next₁) next₂
      else .ok r₁.fromPos
    else if r₁.fromPos = r₁.toPos then
      if next₁ = [] then .ok (-1) else rangesIntersectAt next₁ (r₂ :: next₂)
    else if r₂.fromPos = r₂.toPos then
      if next₂ = [] then .ok (-1) else rangesIntersectAt (r₁ :: next₁) next₂
    else .ok r₁.fromPos
  termination_by rs₁ rs₂ => rs₁.length + rs₂.length

namespace LiveInterval

/-- The constructor -/
def new (regNum : Int) : LiveInterval := ⟨regNum, [], [], -1⟩

/-- `first()`, which is the sentinel when there is no range. -/
def first (it : LiveInterval) : LiveRange := it.ranges.headD rangeEnd

def fromPos (it : LiveInterval) : Int := it.first.fromPos

def setRegNum (it : LiveInterval) (r : Int) : Except String LiveInterval := do
  assertThat (it.regNum = -1) "cannot change reg_num"
  return { it with regNum := r }

/-- `LinearScan::is_virtual_interval`; `vregBase` is the number of machine registers. -/
def isVirtual (vregBase : Nat) (it : LiveInterval) : Bool := (vregBase : Int) ≤ it.regNum

def calcTo (it : LiveInterval) : Except String Int :=
  match it.ranges.getLast? with
  | none => .error "interval has no range"
  | some r => .ok r.toPos

/-- `to()`, with the interval that has cached it. -/
def toPos (it : LiveInterval) : Except String (Int × LiveInterval) := do
  let end_ ← it.calcTo
  let it := if it.cachedTo = -1 then { it with cachedTo := end_ } else it
  assertThat (it.cachedTo = end_) "invalid cached value"
  return (it.cachedTo, it)

def intersectsAt (it other : LiveInterval) : Except String Int :=
  rangesIntersectAt it.ranges other.ranges

/-! ## Queries -/

def coversLoop (opId : Int) (mode : OprMode) : List LiveRange → Except String Bool
  | [] => .ok false
  | cur :: next =>
    if cur.toPos < opId then coversLoop opId mode next
    else do
      assertThat (cur.toPos ≠ (next.headD rangeEnd).fromPos) "ranges not separated"
      if mode = .outputMode then return cur.fromPos ≤ opId ∧ opId < cur.toPos
      else return cur.fromPos ≤ opId ∧ opId ≤ cur.toPos

/-- Whether the position is inside the interval. -/
def covers (it : LiveInterval) (opId : Int) (mode : OprMode) : Except String Bool :=
  coversLoop opId mode it.ranges

def holeLoop (holeFrom holeTo : Int) : List LiveRange → Except String Bool
  | [] => .ok false
  | cur :: next => do
      assertThat (cur.toPos < (next.headD rangeEnd).fromPos) "no space between ranges"
      if holeFrom < cur.fromPos then return true
      else if holeTo ≤ cur.toPos then return false
      else if holeFrom ≤ cur.toPos then return true
      else holeLoop holeFrom holeTo next

def hasHoleBetween (it : LiveInterval) (holeFrom holeTo : Int) :
    Except String (Bool × LiveInterval) := do
  assertThat (holeFrom < holeTo) "check"
  let (end_, it) ← it.toPos
  assertThat (it.fromPos ≤ holeFrom ∧ holeTo ≤ end_) "index out of interval"
  return (← holeLoop holeFrom holeTo it.ranges, it)

/-- The loop of `first_usage` from the end of the array, of which `n` elements are left. -/
def firstUsageLoop (uses : List Int) (minUseKind : UseKind) : Nat → Int
  | n + 2 =>
    if minUseKind.toInt ≤ uses.getD (n + 1) 0 then uses.getD n 0
    else firstUsageLoop uses minUseKind n
  | _ => maxJint

def firstUsage (vregBase : Nat) (it : LiveInterval) (minUseKind : UseKind) : Except String Int := do
  assertThat (it.isVirtual vregBase) "cannot access use positions for fixed intervals"
  return firstUsageLoop it.usePosAndKinds minUseKind it.usePosAndKinds.length

/-! ## Construction -/

/-- The assertions about the use positions that are there already, from `above` on. -/
def checkUses (pos : Int) : Option Int → List Int → Except String Unit
  | above, p :: kind :: rest => do
      assertThat (pos ≤ p) "already added a use-position with lower position"
      assertThat (isValidKind kind) "invalid use kind"
      assertThat (above.all (p < ·)) "not sorted descending"
      checkUses pos (some p) rest
  | _, _ => .ok ()

def addUsePos (vregBase : Nat) (it : LiveInterval) (pos : Int) (useKind : UseKind) :
    Except String LiveInterval := do
  assertThat (← it.covers pos .inputMode) "use position not covered by live range"
  -- use positions of precolored intervals are never used
  if useKind ≠ .noUse ∧ it.isVirtual vregBase then
    assertThat (it.usePosAndKinds.length % 2 = 0) "must be"
    checkUses pos none it.usePosAndKinds
    let len := it.usePosAndKinds.length
    if len = 0 ∨ pos < it.usePosAndKinds.getD (len - 2) 0 then
      return { it with usePosAndKinds := it.usePosAndKinds ++ [pos, useKind.toInt] }
    else if it.usePosAndKinds.getD (len - 1) 0 < useKind.toInt then
      assertThat (it.usePosAndKinds.getD (len - 2) 0 = pos) "list not sorted correctly"
      return { it with usePosAndKinds := it.usePosAndKinds.set (len - 1) useKind.toInt }
    else return it
  else return it

/-- Positions are below `max_jint`, so that no range is joined with the sentinel. -/
def addRange (it : LiveInterval) (fromPos toPos : Int) : Except String LiveInterval := do
  assertThat (fromPos < toPos) "invalid range"
  assertThat (it.ranges = [] ∨ toPos < (it.ranges.tail.headD rangeEnd).fromPos)
    "not inserting at begin of interval"
  assertThat (fromPos ≤ it.first.toPos) "not inserting at begin of interval"
  match it.ranges with
  | [] => return { it with ranges := [⟨fromPos, toPos⟩] }
  | first :: next =>
    if first.fromPos ≤ toPos then
      -- join intersecting ranges
      return { it with ranges := ⟨min fromPos first.fromPos, max toPos first.toPos⟩ :: next }
    else return { it with ranges := ⟨fromPos, toPos⟩ :: first :: next }

/-! ## Splitting -/

/-- The loop of `split` over the ranges, with those before `cur`. -/
def splitRanges (splitPos : Int) (before : List LiveRange) :
    List LiveRange → Except String (List LiveRange × List LiveRange)
  | [] => .error "split interval after end of last range"
  | cur :: next =>
    if cur.toPos ≤ splitPos then splitRanges splitPos (before ++ [cur]) next
    else if cur.fromPos < splitPos then
      .ok (before ++ [⟨cur.fromPos, splitPos⟩], ⟨splitPos, cur.toPos⟩ :: next)
    else do
      assertThat (before ≠ []) "split before start of first range"
      return (before, cur :: next)

/-- `start_idx + 2` -/
def splitIndex (uses : List Int) (splitPos : Int) : Nat → Nat
  | n + 2 => if uses.getD n 0 < splitPos then splitIndex uses splitPos n else n + 2
  | n => n

/-- The assertions about the two parts of the use positions. -/
def checkSplitUses (ok : Int → Bool) : List Int → Except String Unit
  | p :: kind :: rest => do
      assertThat (ok p) "must be"
      assertThat (isValidKind kind) "invalid use kind"
      checkSplitUses ok rest
  | _ => .ok ()

/-- The interval up to `splitPos`, and the rest as a new one. -/
def split (vregBase : Nat) (it : LiveInterval) (splitPos : Int) :
    Except String (LiveInterval × LiveInterval) := do
  assertThat (it.isVirtual vregBase) "cannot split fixed intervals"
  let (ranges, rest) ← splitRanges splitPos [] it.ranges
  let totalLen := it.usePosAndKinds.length
  let index := splitIndex it.usePosAndKinds splitPos totalLen
  let newUses := it.usePosAndKinds.drop index
  let oldUses := it.usePosAndKinds.take index
  assertThat (newUses.length % 2 = 0) "must have use kind for each use pos"
  assertThat (oldUses.length % 2 = 0) "must have use kind for each use pos"
  assertThat (newUses.length + oldUses.length = totalLen) "missed some entries"
  checkSplitUses (· < splitPos) newUses
  checkSplitUses (splitPos ≤ ·) oldUses
  return ({ it with ranges := ranges, usePosAndKinds := newUses, cachedTo := -1 },
    { new (-1) with ranges := rest, usePosAndKinds := oldUses })

/-- The interval from `splitPos` on, and its head as a new one. Only the first range can be
split. -/
def splitFromStart (vregBase : Nat) (it : LiveInterval) (splitPos : Int) :
    Except String (LiveInterval × LiveInterval) := do
  assertThat (it.isVirtual vregBase) "cannot split fixed intervals"
  let (end_, it) ← it.toPos
  assertThat (it.fromPos < splitPos ∧ splitPos < end_) "can only split inside interval"
  assertThat (it.first.fromPos < splitPos ∧ splitPos ≤ it.first.toPos)
    "can only split inside first range"
  assertThat (splitPos < (← it.firstUsage vregBase .noUse))
    "can not split when use positions are present"
  let result ← (new (-1)).addRange it.first.fromPos splitPos
  if splitPos = it.first.toPos then
    assertThat (it.ranges.tail ≠ []) "must not be at end"
    return ({ it with ranges := it.ranges.tail }, result)
  else
    return ({ it with ranges := ⟨splitPos, it.first.toPos⟩ :: it.ranges.tail }, result)

end LiveInterval
end HotSpot.C1
