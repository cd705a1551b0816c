import HotSpot.Lib.Runs
import Mathlib

/-! # Task queues

`TaskQueueSuper` and `GenericTaskQueue` of `taskqueue.hpp`: a ring of `N` elements between
the indices `_age.top()` and `_bottom`. The owner pushes and pops at the bottom, all others
pop at the top. The operations are here as they run alone.
-/

namespace HotSpot

namespace TaskQueue

/-- The constants of a queue: `N` is a power of two, and `idx_t` has 16 or 32 bits. -/
structure Shape where
  logN : Nat
  idxBits : Nat
  two_le : 2 ≤ logN
  sixteen_le : 16 ≤ idxBits

theorem sixteen_le_intBits : 16 ≤ 32 := by decide

namespace Shape

variable (shape : Shape)

def N : Nat := 2 ^ shape.logN

theorem four_le_N : 4 ≤ shape.N := Nat.pow_le_pow_right (by decide : 2 > 0) shape.two_le

end Shape

/-- `_age`: the top index and the tag, which are read and exchanged as one word. -/
structure Age where
  top : Nat
  tag : Nat
  deriving DecidableEq, Repr

variable (shape : Shape)

/-! ## Indices

`uint` arithmetic wraps at a multiple of `N`, so that the masks make it arithmetic mod `N`. -/

def incrementIndex (ind : Nat) : Nat := (ind + 1) % shape.N

def decrementIndex (ind : Nat) : Nat := (ind + (shape.N - 1)) % shape.N

/-- Returns a number in the range [0..N). If the result is N-1, it should be interpreted
as 0. -/
def dirtySize (bot top : Nat) : Nat := (bot + (shape.N - top)) % shape.N

def size (bot top : Nat) : Nat :=
  let sz := dirtySize shape bot top
  if sz = shape.N - 1 then 0 else sz

def maxElems : Nat := shape.N - 2

/-- Tags are of the type `idx_t`. -/
def incrementTag (tag : Nat) : Nat := (tag + 1) % 2 ^ shape.idxBits

/-- Increment top; if it wraps, increment tag also. -/
def Age.increment (age : Age) : Age :=
  let top := incrementIndex shape age.top
  ⟨top, if top = 0 then incrementTag shape age.tag else age.tag⟩

end TaskQueue

/-- A queue of tasks; `_elems` holds what the memory held where no task was stored yet. -/
structure TaskQueue (E : Type*) where
  bottom : Nat
  age : TaskQueue.Age
  elems : Nat → E

namespace TaskQueue

variable {E : Type*} (shape : Shape) (q : TaskQueue E)

/-- `peek`: whether the queue contains any tasks. -/
def peek : Bool := q.bottom != q.age.top

/-- Stores a task at the bottom. -/
def store (t : E) : TaskQueue E :=
  { q with elems := Function.update q.elems q.bottom t,
           bottom := incrementIndex shape q.bottom }

def pushSlow (t : E) (dirtyNElems : Nat) : TaskQueue E × Bool :=
  -- N-1 actually means 0, so do the push.
  if dirtyNElems = shape.N - 1 then (q.store shape t, true) else (q, false)

def push (t : E) : TaskQueue E × Bool :=
  let dirtyNElems := dirtySize shape q.bottom q.age.top
  if dirtyNElems < maxElems shape then (q.store shape t, true) else q.pushSlow shape t dirtyNElems

/-- Installs the age of the empty queue. The exchange cannot fail when the operation runs
alone. -/
def popLocalSlow (localBot : Nat) (oldAge : Age) : TaskQueue E × Bool :=
  ({ q with age := ⟨localBot, incrementTag shape oldAge.tag⟩ }, localBot = oldAge.top)

def popLocal : TaskQueue E × Option E :=
  let dirtyNElems := dirtySize shape q.bottom q.age.top
  if dirtyNElems = 0 then (q, none)
  else
    let localBot := decrementIndex shape q.bottom
    let q := { q with bottom := localBot }
    let t := q.elems localBot
    if 0 < size shape localBot q.age.top then (q, some t)
    else
      let (q, won) := q.popLocalSlow shape localBot q.age
      (q, if won then some t else none)

def popGlobal : TaskQueue E × Option E :=
  let oldAge := q.age
  if size shape q.bottom oldAge.top = 0 then (q, none)
  else ({ q with age := oldAge.increment shape }, some (q.elems oldAge.top))

/-! ## Between operations -/

section Indices

variable {shape} {ind bot top : Nat}

theorem incrementIndex_eq (h : ind < shape.N) :
    incrementIndex shape ind = if ind + 1 = shape.N then 0 else ind + 1 := by
  rw [incrementIndex]
  split
  next heq => rw [heq, Nat.mod_self]
  next hne => exact Nat.mod_eq_of_lt (by omega)

theorem decrementIndex_eq (h : ind < shape.N) :
    decrementIndex shape ind = if ind = 0 then shape.N - 1 else ind - 1 := by
  rw [decrementIndex]
  split
  next heq => rw [heq, Nat.zero_add, Nat.mod_eq_of_lt (by omega)]
  next hne =>
    rw [show ind + (shape.N - 1) = (ind - 1) + shape.N by omega, Nat.add_mod_right,
      Nat.mod_eq_of_lt (by omega)]

theorem dirtySize_eq (hbot : bot < shape.N) (htop : top < shape.N) :
    dirtySize shape bot top = if top ≤ bot then bot - top else bot + shape.N - top := by
  rw [dirtySize]
  split
  next hle =>
    rw [show bot + (shape.N - top) = (bot - top) + shape.N by omega, Nat.add_mod_right,
      Nat.mod_eq_of_lt (by omega)]
  next hlt =>
    rw [show bot + (shape.N - top) = bot + shape.N - top by omega, Nat.mod_eq_of_lt (by omega)]

end Indices

/-- A queue between two operations of its owner: the indices are in range, and the dirty
size is not N-1. -/
structure Canonical : Prop where
  bottom_lt : q.bottom < shape.N
  top_lt : q.age.top < shape.N
  dirty_le : dirtySize shape q.bottom q.age.top ≤ shape.N - 2

variable {shape q}

namespace Canonical

theorem store (h : q.Canonical shape) (t : E)
    (hroom : dirtySize shape q.bottom q.age.top < maxElems shape) :
    (q.store shape t).Canonical shape := by
  obtain ⟨hbot, htop, -⟩ := h
  have hN := shape.four_le_N
  have hnext : incrementIndex shape q.bottom < shape.N := Nat.mod_lt _ (by omega)
  refine ⟨hnext, htop, ?_⟩
  rw [dirtySize_eq hbot htop, maxElems] at hroom
  rw [TaskQueue.store, dirtySize_eq hnext htop, incrementIndex_eq hbot]
  split_ifs at hroom ⊢ <;> omega

theorem push (h : q.Canonical shape) (t : E) : (q.push shape t).1.Canonical shape := by
  simp only [TaskQueue.push]
  split
  next hroom => exact h.store t hroom
  next hfull =>
    have hN := shape.four_le_N
    have hdirty := h.dirty_le
    rw [pushSlow, if_neg (by omega)]
    exact h

theorem popLocal (h : q.Canonical shape) : (q.popLocal shape).1.Canonical shape := by
  obtain ⟨hbot, htop, hdirty⟩ := h
  have hN := shape.four_le_N
  have hprev : decrementIndex shape q.bottom < shape.N := Nat.mod_lt _ (by omega)
  simp only [TaskQueue.popLocal]
  split
  next => exact ⟨hbot, htop, hdirty⟩
  next hne =>
    split
    next hmore =>
      refine ⟨hprev, htop, ?_⟩
      rw [dirtySize_eq hbot htop] at hne hdirty
      simp only
      rw [dirtySize_eq hprev htop, decrementIndex_eq hbot]
      split_ifs at hne hdirty ⊢ <;> omega
    next =>
      refine ⟨hprev, hprev, ?_⟩
      simp only [popLocalSlow]
      rw [dirtySize_eq hprev hprev]
      simp

theorem popGlobal (h : q.Canonical shape) : (q.popGlobal shape).1.Canonical shape := by
  obtain ⟨hbot, htop, hdirty⟩ := h
  have hN := shape.four_le_N
  have hnext : incrementIndex shape q.age.top < shape.N := Nat.mod_lt _ (by omega)
  simp only [TaskQueue.popGlobal]
  split
  next => exact ⟨hbot, htop, hdirty⟩
  next hne =>
    refine ⟨hbot, hnext, ?_⟩
    rw [size, dirtySize_eq hbot htop] at hne
    rw [dirtySize_eq hbot htop] at hdirty
    simp only [Age.increment]
    rw [dirtySize_eq hbot hnext, incrementIndex_eq htop]
    split_ifs at hne hdirty ⊢ <;> omega

end Canonical

/-! ## Empty queues -/

theorem peek_eq_false_iff : q.peek = false ↔ q.bottom = q.age.top := by
  simp [peek]

/-- Between operations `size()` is 0 only when the indices are equal. -/
theorem Canonical.size_eq_zero_iff (h : q.Canonical shape) :
    size shape q.bottom q.age.top = 0 ↔ q.peek = false := by
  obtain ⟨hbot, htop, hdirty⟩ := h
  have hN := shape.four_le_N
  rw [peek_eq_false_iff, size]
  rw [dirtySize_eq hbot htop] at hdirty ⊢
  split_ifs at hdirty ⊢ <;> omega

theorem Canonical.popLocal_of_empty (h : q.Canonical shape) (hempty : q.peek = false) :
    q.popLocal shape = (q, none) := by
  rw [peek_eq_false_iff] at hempty
  rw [TaskQueue.popLocal, if_pos]
  rw [dirtySize_eq h.bottom_lt h.top_lt, hempty, if_pos (Nat.le_refl _), Nat.sub_self]

theorem Canonical.popGlobal_of_empty (h : q.Canonical shape) (hempty : q.peek = false) :
    q.popGlobal shape = (q, none) := by
  rw [TaskQueue.popGlobal, if_pos (h.size_eq_zero_iff.mpr hempty)]

end TaskQueue

end HotSpot

/-! ## The steps of a task queue

The operations of `GenericTaskQueue` one read, write or exchange at a time, as the owner and
any number of thieves interleave them.
-/

namespace HotSpot.TaskQueue

variable {ι E : Type*}

/-- Where the owner is: each constructor is the next access of an operation, with the values
of the local variables. -/
inductive Owner (E : Type*) where
  | idle
  | pushTop (t : E) (localBot : Nat)
  | pushSlowBottom (t : E)
  | pushElem (t : E) (localBot : Nat)
  | pushBottom (t : E) (localBot : Nat)
  | popTop (localBot : Nat)
  | popBottom (localBot : Nat)
  | popElem (localBot : Nat)
  | popTopAgain (localBot : Nat) (t : E)
  | popSlowAge (localBot : Nat) (t : E)
  | popSlowExchange (localBot : Nat) (t : E) (oldAge : Age)
  | popSlowSet (newAge : Age)

/-- The calls of the owner. -/
inductive Call (E : Type*) where
  | push (t : E)
  | popLocal

/-- Where a thief is in `pop_global`. `since` is the number of tag increments when it read the
age. -/
inductive Thief (E : Type*) where
  | idle
  | readBottom (oldAge : Age) (since : Nat)
  | readElem (oldAge : Age) (since : Nat)
  | exchange (oldAge : Age) (since : Nat) (t : E)

/-- The shared queue, the owner and the thieves, with the history of the queue: the tasks
stored in `_elems`, those pushed with success, those returned by a pop, and how often the tag
was incremented. -/
structure State (ι E : Type*) where
  queue : TaskQueue E
  owner : Owner E
  thieves : ι → Thief E
  stored : Multiset E
  pushed : Multiset E
  popped : Multiset E
  tagIncrements : Nat

variable (shape : Shape)

namespace State

variable (s : State ι E)

/-- A write of `_age`. -/
def setAge (age : Age) : State ι E :=
  { s with
    queue := { s.queue with age := age }
    tagIncrements :=
      if age.tag = s.queue.age.tag then s.tagIncrements else s.tagIncrements + 1 }

/-- An operation of the owner returns a task. -/
def returnTask (t : E) : State ι E := { s with owner := .idle, popped := t ::ₘ s.popped }

/-- The next step of the owner; `call` is what it calls when it is idle. -/
def ownerStep (call : Call E) : State ι E :=
  match s.owner with
  | .idle =>
    match call with
    | .push t => { s with owner := .pushTop t s.queue.bottom }
    | .popLocal => { s with owner := .popTop s.queue.bottom }
  | .pushTop t localBot =>
    let dirtyNElems := dirtySize shape localBot s.queue.age.top
    if dirtyNElems < maxElems shape then { s with owner := .pushElem t localBot }
    else if dirtyNElems = shape.N - 1 then { s with owner := .pushSlowBottom t }
    else { s with owner := .idle } -- the push fails
  | .pushSlowBottom t => { s with owner := .pushElem t s.queue.bottom }
  | .pushElem t localBot =>
    { s with
      queue := { s.queue with elems := Function.update s.queue.elems localBot t }
      owner := .pushBottom t localBot
      stored := t ::ₘ s.stored }
  | .pushBottom t localBot =>
    { s with
      queue := { s.queue with bottom := incrementIndex shape localBot }
      owner := .idle
      pushed := t ::ₘ s.pushed }
  | .popTop localBot =>
    if dirtySize shape localBot s.queue.age.top = 0 then { s with owner := .idle }
    else { s with owner := .popBottom (decrementIndex shape localBot) }
  | .popBottom localBot =>
    { s with queue := { s.queue with bottom := localBot }, owner := .popElem localBot }
  | .popElem localBot => { s with owner := .popTopAgain localBot (s.queue.elems localBot) }
  | .popTopAgain localBot t =>
    if 0 < size shape localBot s.queue.age.top then s.returnTask t
    else { s with owner := .popSlowAge localBot t }
  | .popSlowAge localBot t =>
    let oldAge := s.queue.age
    if localBot = oldAge.top then { s with owner := .popSlowExchange localBot t oldAge }
    else { s with owner := .popSlowSet ⟨localBot, incrementTag shape oldAge.tag⟩ }
  | .popSlowExchange localBot t oldAge =>
    let newAge := ⟨localBot, incrementTag shape oldAge.tag⟩
    if s.queue.age = oldAge then (s.setAge newAge).returnTask t
    else { s with owner := .popSlowSet newAge }
  | .popSlowSet newAge => { s.setAge newAge with owner := .idle }

variable [DecidableEq ι]

def setThief (i : ι) (thief : Thief E) : State ι E :=
  { s with thieves := Function.update s.thieves i thief }

/-- The next step of a thief. -/
def thiefStep (i : ι) : State ι E :=
  match s.thieves i with
  | .idle => s.setThief i (.readBottom s.queue.age s.tagIncrements)
  | .readBottom oldAge since =>
    if size shape s.queue.bottom oldAge.top = 0 then s.setThief i .idle
    else s.setThief i (.readElem oldAge since)
  | .readElem oldAge since => s.setThief i (.exchange oldAge since (s.queue.elems oldAge.top))
  | .exchange oldAge _ t =>
    if s.queue.age = oldAge then
      { (s.setAge (oldAge.increment shape)).setThief i .idle with popped := t ::ₘ s.popped }
    else s.setThief i .idle

end State

/-- The empty queue of the constructor; `_elems` is not set. -/
def initial (elems : Nat → E) : State ι E where
  queue := ⟨0, ⟨0, 0⟩, elems⟩
  owner := .idle
  thieves _ := .idle
  stored := 0
  pushed := 0
  popped := 0
  tagIncrements := 0

/-- The number of tag increments when a thief in `pop_global` began. -/
def Thief.since : Thief E → Option Nat
  | .idle => none
  | .readBottom _ since => some since
  | .readElem _ since => some since
  | .exchange _ since _ => some since

/-- Fewer than 2^16 tag increments have happened during each `pop_global` in progress. -/
def FewIncrements (s : State ι E) : Prop :=
  ∀ i, ∀ since ∈ (s.thieves i).since, s.tagIncrements - since < 2 ^ 16

/-- Any interleaving of the steps of the owner, with any calls, and of the thieves. -/
def system [DecidableEq ι] (elems : Nat → E) : TransitionSystem (State ι E) where
  init s := s = initial elems
  step s s' :=
    ((∃ call, s' = s.ownerStep shape call) ∨ ∃ i, s' = s.thiefStep shape i) ∧ FewIncrements s'

/-! ## What is in the queue -/

/-- The owner is between its decrement of `_bottom` and the end of its pop. -/
def Owner.Popping : Owner E → Bool
  | .popElem _ => true
  | .popTopAgain _ _ => true
  | .popSlowAge _ _ => true
  | .popSlowExchange _ _ _ => true
  | .popSlowSet _ => true
  | _ => false

/-- The task of a push that has stored it and not returned yet. -/
def Owner.storing : Owner E → Multiset E
  | .pushBottom t _ => {t}
  | _ => 0

/-- The number of tasks in the queue. The task that the owner is popping is in the queue until
the pop returns, or until a thief takes it. -/
def State.count (s : State ι E) : Nat :=
  let dirtyNElems := dirtySize shape s.queue.bottom s.queue.age.top
  if s.owner.Popping then if dirtyNElems = shape.N - 1 then 0 else dirtyNElems + 1
  else dirtyNElems

/-- The tasks in the queue, from the top. -/
def State.queued (s : State ι E) : List E :=
  (List.range (s.count shape)).map fun i => s.queue.elems ((s.queue.age.top + i) % shape.N)

end HotSpot.TaskQueue
