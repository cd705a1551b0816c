import HotSpot.Lib.SignedWord
import HotSpot.Lib.TripCount
import HotSpot.Opto.Node
import Mathlib.Data.BitVec

/-! # Counted loops

A loop whose back edge is guarded by a compare of its trip counter with a limit
becomes a counted loop. The new limit is the last value of the counter, computed
in front of the loop, and the new test compares the incremented counter with it.
-/

namespace HotSpot.Opto

namespace BoolTest

/-- `_test ^ 4`. -/
def negate : BoolTest → BoolTest
  | eq => ne
  | ne => eq
  | le => gt
  | gt => le
  | lt => ge
  | ge => lt

def commute : BoolTest → BoolTest
  | eq => eq
  | ne => ne
  | le => ge
  | gt => lt
  | lt => gt
  | ge => le

/-- A `Bool` of a `CmpI`. -/
def compares (test : BoolTest) (x y : BitVec 32) : Bool :=
  test.holds (compare BitVec.slt x y)

end BoolTest

/-- A loop tested at its bottom, with an increment by a constant. -/
structure IntLoop where
  initTrip : BitVec 32
  limit : BitVec 32
  stride : BitVec 32
  /-- The compare reads the phi, not the increment. -/
  comparesPhi : Bool
  /-- The limit is the first input of the compare. -/
  limitFirst : Bool
  test : BoolTest
  /-- The back edge is the `IfFalse` projection. -/
  backOnFalse : Bool
  deriving DecidableEq, Repr

namespace IntLoop

def takesBack (l : IntLoop) (phi : BitVec 32) : Bool :=
  let counter := if l.comparesPhi then phi else phi + l.stride
  let taken := if l.limitFirst then l.test.compares l.limit counter
    else l.test.compares counter l.limit
  if l.backOnFalse then !taken else taken

end IntLoop

/-- The loop that `is_counted_loop` leaves behind. -/
structure CountedLoop where
  initTrip : BitVec 32
  limit : BitVec 32
  stride : BitVec 32
  test : BoolTest
  deriving DecidableEq, Repr

namespace CountedLoop

def takesBack (l : CountedLoop) (phi : BitVec 32) : Bool :=
  l.test.compares (phi + l.stride) l.limit

end CountedLoop

namespace IntLoop

/-- The test under which the back edge is taken, of the counter with the limit. -/
def backTest (l : IntLoop) : BoolTest :=
  let bt := if l.backOnFalse then l.test.negate else l.test
  if l.limitFirst then bt.commute else bt

/-- The loop for a trip count, whose limit is the last value of the counter. -/
def canonical (l : IntLoop) (tripCount : BitVec 32) (bt : BoolTest) : CountedLoop where
  initTrip := l.initTrip
  limit := tripCount * l.stride + l.initTrip
  stride := l.stride
  test := bt

end IntLoop

end HotSpot.Opto

/-! ## When a counted loop is the loop it was made of

Both loops step through the same values, so they agree when they take their back
edges alike. Loops that count up and loops that count down are treated at once,
by the numbers in the direction of counting.
-/

namespace HotSpot.Opto

open TripCount

/-! ## Numbers in the direction of counting -/

/-- The number of a word, negated for a loop that counts down. -/
def oriented (up : Bool) (x : BitVec 32) : ℤ := if up then x.toInt else -x.toInt

/-- The last number in the direction of counting. -/
def top (up : Bool) : ℤ := if up then 2 ^ 31 - 1 else 2 ^ 31

theorem inRange_oriented (up : Bool) (x : BitVec 32) :
    InRange (2 ^ 32) (top up) (oriented up x) := by
  have hlo := BitVec.le_toInt x
  have hhi := BitVec.toInt_lt (x := x)
  cases up <;> simp only [InRange, top, oriented] <;> constructor <;> simp at * <;> omega

/-- A word that a number wraps around into. -/
theorem oriented_modEq (up : Bool) {a : ℤ} {x : BitVec 32} (h : x = BitVec.ofInt 32 a) :
    oriented up x ≡ (if up then a else -a) [ZMOD 2 ^ 32] := by
  have hmod : x.toInt ≡ a [ZMOD 2 ^ 32] := by
    have hbmod := Int.bmod_emod (x := a) (m := 2 ^ 32)
    rw [← BitVec.toInt_ofInt, ← h] at hbmod
    exact_mod_cast hbmod
  cases up
  · exact hmod.neg
  · exact hmod

theorem ofInt_counter (init stride : BitVec 32) (k : Nat) :
    init + BitVec.ofNat 32 k * stride = BitVec.ofInt 32 (init.toInt + k * stride.toInt) := by
  rw [BitVec.ofInt_add, BitVec.ofInt_mul, BitVec.ofInt_toInt, BitVec.ofInt_toInt,
    BitVec.ofInt_natCast]

/-- The counter of an iteration, before the counter leaves the range. -/
theorem oriented_counter {up : Bool} {init stride : BitVec 32} {k : Nat}
    (hle : oriented up init + k * oriented up stride ≤ top up)
    (hpos : 0 < oriented up stride) :
    oriented up (init + BitVec.ofNat 32 k * stride) =
      oriented up init + k * oriented up stride := by
  have hlo := (inRange_oriented up init).1
  have hmod := oriented_modEq up (ofInt_counter init stride k)
  refine (inRange_oriented up _).eq_of_modEq ⟨by nlinarith, hle⟩ (hmod.trans ?_)
  cases up
  · refine Int.ModEq.symm (Int.modEq_of_dvd ?_)
    simp only [oriented]
    exact ⟨0, by simp; ring⟩
  · exact Int.ModEq.refl _

/-! ## Runs -/

section Runs

variable {init stride : BitVec 32} {takes takes' : BitVec 32 → Bool}

end Runs

/-! ## The tests -/

/-- The relation between numbers that a test is for. -/
def BoolTest.Relates (a b : ℤ) : BoolTest → Prop
  | eq => a = b
  | ne => a ≠ b
  | le => a ≤ b
  | ge => b ≤ a
  | lt => a < b
  | gt => b < a

/-- A comparison by an order of the words decides the relation of their keys. -/
theorem holds_compare_iff {w : Nat} {lt : BitVec w → BitVec w → Bool} (key : BitVec w → ℤ)
    (hlt : ∀ x y, lt x y = true ↔ key x < key y) (hkey : ∀ x y, key x = key y ↔ x = y)
    (test : BoolTest) (x y : BitVec w) :
    test.holds (compare lt x y) = true ↔ test.Relates (key x) (key y) := by
  rw [compare]
  by_cases hless : lt x y
  · rw [if_pos hless]
    rw [hlt] at hless
    cases test <;> simp [BoolTest.holds, BoolTest.Relates] <;> omega
  · rw [if_neg hless]
    rw [hlt] at hless
    by_cases heq : x = y
    · subst heq
      rw [if_pos rfl]
      cases test <;> simp [BoolTest.holds, BoolTest.Relates]
    · rw [if_neg heq]
      rw [← hkey] at heq
      cases test <;> simp [BoolTest.holds, BoolTest.Relates] <;> omega

/-- The word that the loop compares with its limit. -/
def IntLoop.counter (l : IntLoop) (phi : BitVec 32) : BitVec 32 :=
  if l.comparesPhi then phi else phi + l.stride

namespace IntLoop

variable (l : IntLoop)

def countsUp : Bool := l.backTest == .lt || l.backTest == .le

def inclusive : Bool := l.backTest == .le || l.backTest == .ge

/-- The bound of the incremented counter, in the direction of counting and
without wrapping around. -/
def bound : ℤ :=
  oriented l.countsUp l.limit + (if l.comparesPhi then oriented l.countsUp l.stride else 0) +
    if l.inclusive then 1 else 0

end IntLoop

/-- What a loop with a one-sided test becomes, in the direction of counting. -/
structure Oriented (l : IntLoop) (c : CountedLoop) : Prop where
  initTrip : c.initTrip = l.initTrip
  stride : c.stride = l.stride
  pos : 0 < oriented l.countsUp l.stride
  takes : ∀ phi, l.takesBack phi = decide (oriented l.countsUp (l.counter phi) <
    oriented l.countsUp l.limit + if l.inclusive then 1 else 0)
  takes' : ∀ phi, c.takesBack phi = decide (oriented l.countsUp (phi + l.stride) <
    oriented l.countsUp c.limit)
  limit : Computed (2 ^ 32) (top l.countsUp) (oriented l.countsUp l.initTrip) l.bound
    (oriented l.countsUp l.stride) (oriented l.countsUp c.limit)

section Accepted

variable {l : IntLoop} {c : CountedLoop}

end Accepted

/-! ## The loops compared -/

namespace Oriented

variable {l : IntLoop} {c : CountedLoop}

theorem counter_succ (l : IntLoop) (k : Nat) :
    l.initTrip + BitVec.ofNat 32 k * l.stride + l.stride =
      l.initTrip + BitVec.ofNat 32 (k + 1) * l.stride := by
  rw [BitVec.ofNat_add, BitVec.add_mul, BitVec.add_assoc]
  simp

theorem takes_iff (h : Oriented l c) {k : Nat}
    (hk : oriented l.countsUp l.initTrip + (k + 1 : ℕ) * oriented l.countsUp l.stride ≤
      top l.countsUp) :
    l.takesBack (l.initTrip + BitVec.ofNat 32 k * l.stride) = true ↔
      oriented l.countsUp l.initTrip + (k + 1 : ℕ) * oriented l.countsUp l.stride < l.bound := by
  have hpos := h.pos
  rw [h.takes, decide_eq_true_iff, IntLoop.counter, IntLoop.bound]
  push_cast at hk ⊢
  split
  · rw [oriented_counter (by linarith) hpos]
    constructor <;> intro hlt <;> linarith
  · rw [counter_succ, oriented_counter (by push_cast; linarith) hpos]
    push_cast
    constructor <;> intro hlt <;> linarith

end Oriented

end HotSpot.Opto
