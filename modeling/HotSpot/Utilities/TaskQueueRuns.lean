import HotSpot.Lib.RingBuffer
import HotSpot.Utilities.TaskQueue
import Mathlib

/-! # Runs of a task queue

No interleaving of pushes, local pops and global pops loses or duplicates a task, as long as
no tag comes round during one global pop.

An age is never installed twice: every write of `_age` raises the number of tag increments,
or the top within it. A thief whose exchange succeeds has therefore seen the age that is
still there, and the task at its top.
-/

namespace HotSpot.TaskQueue

variable {ι E : Type*} {shape : Shape}

/-! ## Ring positions -/

theorem add_mod_N {a b : Nat} (ha : a < shape.N) (hb : b ≤ shape.N) :
    (a + b) % shape.N = if a + b < shape.N then a + b else a + b - shape.N := by
  split
  next hlt => exact Nat.mod_eq_of_lt hlt
  next hge => rw [Nat.mod_eq_sub_mod (by omega), Nat.mod_eq_of_lt (by omega)]

/-- The index of `_bottom` when the queue has tasks in number `len`. -/
def bottomOf (shape : Shape) (top len : Nat) (popping : Bool) : Nat :=
  if popping then (top + len + (shape.N - 1)) % shape.N else (top + len) % shape.N

theorem bottomOf_lt (top len : Nat) (popping : Bool) :
    bottomOf shape top len popping < shape.N := by
  have hN := shape.four_le_N
  rw [bottomOf]
  split <;> exact Nat.mod_lt _ (by omega)

theorem bottomOf_popping {top len : Nat} (htop : top < shape.N) (hlen : len ≤ shape.N - 2) :
    bottomOf shape top len true =
      if top + len = 0 then shape.N - 1
      else if top + len - 1 < shape.N then top + len - 1 else top + len - 1 - shape.N := by
  have hN := shape.four_le_N
  rw [bottomOf, if_pos rfl]
  split
  next hzero => rw [hzero, Nat.zero_add, Nat.mod_eq_of_lt (by omega)]
  next hpos =>
    rw [show top + len + (shape.N - 1) = (top + len - 1) + shape.N by omega, Nat.add_mod_right]
    split
    next hlt => exact Nat.mod_eq_of_lt hlt
    next hge => rw [Nat.mod_eq_sub_mod (by omega), Nat.mod_eq_of_lt (by omega)]

theorem bottomOf_resting {top len : Nat} (htop : top < shape.N) (hlen : len ≤ shape.N - 2) :
    bottomOf shape top len false =
      if top + len < shape.N then top + len else top + len - shape.N := by
  rw [bottomOf, if_neg (by decide), add_mod_N htop (by omega)]

/-- The dirty size when the owner is not popping. -/
theorem dirtySize_resting {top len : Nat} (htop : top < shape.N) (hlen : len ≤ shape.N - 2) :
    dirtySize shape (bottomOf shape top len false) top = len := by
  have hN := shape.four_le_N
  rw [dirtySize_eq (bottomOf_lt _ _ _) htop, bottomOf_resting htop hlen]
  split_ifs <;> omega

/-- The dirty size when the owner is popping: N-1 when a thief has taken its task. -/
theorem dirtySize_popping {top len : Nat} (htop : top < shape.N) (hlen : len ≤ shape.N - 2) :
    dirtySize shape (bottomOf shape top len true) top =
      if len = 0 then shape.N - 1 else len - 1 := by
  have hN := shape.four_le_N
  rw [dirtySize_eq (bottomOf_lt _ _ _) htop, bottomOf_popping htop hlen]
  split_ifs <;> omega

/-- The pop of the owner ends: the queue is shorter by its task. -/
theorem bottomOf_dropLast {top len : Nat} :
    bottomOf shape top (len + 1) true = bottomOf shape top len false := by
  have hN := shape.four_le_N
  rw [bottomOf, if_pos rfl, bottomOf, if_neg (by decide),
    show top + (len + 1) + (shape.N - 1) = top + len + shape.N by omega, Nat.add_mod_right]

/-- A thief takes the first task. -/
theorem bottomOf_tail {top len : Nat} {popping : Bool} :
    bottomOf shape (incrementIndex shape top) len popping =
      bottomOf shape top (len + 1) popping := by
  rw [bottomOf, bottomOf, incrementIndex]
  split
  next =>
    rw [Nat.add_assoc, Nat.mod_add_mod]
    congr 1
    omega
  next =>
    rw [Nat.mod_add_mod]
    congr 1
    omega

/-! ## The invariant -/

/-- What a thief remembers of an age was so at some time; it is fresh when no age has been
installed since. -/
structure Seen (shape : Shape) (top tags : Nat) (oldAge : Age) (since : Nat) : Prop where
  since_le : since ≤ tags
  tag : oldAge.tag = since % 2 ^ shape.idxBits
  top_le : since = tags → oldAge.top ≤ top

def Fresh (top tags : Nat) (oldAge : Age) (since : Nat) : Prop :=
  since = tags ∧ oldAge.top = top

/-- What a thief relies on: if its age is fresh, there is a task to take. -/
def ThiefOk (shape : Shape) (top tags : Nat) (l : List E) : Thief E → Prop
  | .idle => True
  | .readBottom oldAge since => Seen shape top tags oldAge since
  | .readElem oldAge since =>
    Seen shape top tags oldAge since ∧ (Fresh top tags oldAge since → l ≠ [])
  | .exchange oldAge since t =>
    Seen shape top tags oldAge since ∧
      (Fresh top tags oldAge since → l.head? = some t)

/-- The tag that the owner is going to install: the next one, unless the thief that has taken
the task of the pop has wrapped the top and the tag with it. -/
def NextTag (shape : Shape) (top tags localBot tag : Nat) : Prop :=
  ∃ g, tag = g % 2 ^ shape.idxBits ∧
    (g = tags + 1 ∨ g = tags ∧ top = 0 ∧ localBot = shape.N - 1)

/-- What the owner relies on at each step; `l` are the tasks in the queue. -/
def OwnerOk (shape : Shape) (q : TaskQueue E) (tags : Nat) (l : List E) : Owner E → Prop
  | .idle => True
  | .pushTop _ localBot => localBot = q.bottom
  | .pushSlowBottom _ => False
  | .pushElem _ localBot => localBot = q.bottom ∧ l.length < shape.N - 2
  | .pushBottom t localBot =>
    localBot = q.bottom ∧ l.length < shape.N - 2 ∧ q.elems localBot = t
  | .popTop localBot => localBot = q.bottom
  | .popBottom localBot => localBot = decrementIndex shape q.bottom
  | .popElem localBot => localBot = q.bottom
  | .popTopAgain localBot t => localBot = q.bottom ∧ t = q.elems localBot
  | .popSlowAge localBot t => localBot = q.bottom ∧ t = q.elems localBot ∧ l.length ≤ 1
  | .popSlowExchange localBot t oldAge =>
    localBot = q.bottom ∧ t = q.elems localBot ∧ l.length ≤ 1 ∧ oldAge.top = localBot ∧
      (l ≠ [] → q.age = oldAge) ∧
      (l = [] → NextTag shape q.age.top tags localBot (incrementTag shape oldAge.tag))
  | .popSlowSet newAge =>
    newAge.top = q.bottom ∧ l = [] ∧ NextTag shape q.age.top tags newAge.top newAge.tag

/-- The invariant of all runs; `l` are the tasks in the queue. -/
structure Inv (shape : Shape) (s : State ι E) (l : List E) : Prop where
  top_lt : s.queue.age.top < shape.N
  tag : s.queue.age.tag = s.tagIncrements % 2 ^ shape.idxBits
  room : l.length ≤ shape.N - 2
  holds : RingBuffer.Holds shape.N s.queue.elems s.queue.age.top l
  bottom : s.queue.bottom = bottomOf shape s.queue.age.top l.length s.owner.Popping
  owner : OwnerOk shape s.queue s.tagIncrements l s.owner
  thieves : ∀ i, ThiefOk shape s.queue.age.top s.tagIncrements l (s.thieves i)
  balance : s.pushed = (l : Multiset E) + s.popped
  stored : s.stored = s.pushed + s.owner.storing

section Thieves

variable {top tags top' tags' : Nat} {l l' : List E} {thief : Thief E}

/-- Ages go up. -/
def Raises (top tags top' tags' : Nat) : Prop := tags < tags' ∨ (tags = tags' ∧ top < top')

theorem Seen.raise {oldAge : Age} {since : Nat} (h : Seen shape top tags oldAge since)
    (hraise : Raises top tags top' tags') :
    Seen shape top' tags' oldAge since ∧ ¬ Fresh top' tags' oldAge since := by
  obtain ⟨hsince, htag, htop⟩ := h
  rcases hraise with hlt | ⟨rfl, hlt⟩
  · refine ⟨⟨by omega, htag, by omega⟩, ?_⟩
    rintro ⟨heq, -⟩
    omega
  · refine ⟨⟨hsince, htag, fun heq => ?_⟩, ?_⟩
    · have := htop heq
      omega
    · rintro ⟨heq, htop'⟩
      have := htop heq
      omega

/-- A new age makes all thieves stale. -/
theorem ThiefOk.raise (h : ThiefOk shape top tags l thief) (hraise : Raises top tags top' tags') :
    ThiefOk shape top' tags' l' thief := by
  cases thief with
  | idle => trivial
  | readBottom oldAge since => exact (Seen.raise h hraise).1
  | readElem oldAge since =>
    obtain ⟨hseen, hstale⟩ := Seen.raise h.1 hraise
    exact ⟨hseen, fun hfresh => absurd hfresh hstale⟩
  | exchange oldAge since t =>
    obtain ⟨hseen, hstale⟩ := Seen.raise h.1 hraise
    exact ⟨hseen, fun hfresh => absurd hfresh hstale⟩

/-- The age stays, and the first task with it. -/
theorem ThiefOk.keep (h : ThiefOk shape top tags l thief)
    (hhead : ∀ t, l.head? = some t → l'.head? = some t) : ThiefOk shape top tags l' thief := by
  cases thief with
  | idle => trivial
  | readBottom oldAge since => exact h
  | readElem oldAge since =>
    refine ⟨h.1, fun hfresh => ?_⟩
    obtain ⟨t, rest, rfl⟩ := List.exists_cons_of_ne_nil (h.2 hfresh)
    rintro rfl
    cases hhead t rfl
  | exchange oldAge since t => exact ⟨h.1, fun hfresh => hhead t (h.2 hfresh)⟩

end Thieves

/-! ## Steps of the owner -/

theorem Owner.storing_of_popping {owner : Owner E} (h : owner.Popping = true) :
    owner.storing = 0 := by
  cases owner <;> first | rfl | cases h

namespace Inv

variable {s : State ι E} {l : List E}

/-- A step that only goes on to the next access. -/
theorem setOwner (h : Inv shape s l) {owner : Owner E} (hpopping : owner.Popping = s.owner.Popping)
    (hstoring : owner.storing = s.owner.storing)
    (hok : OwnerOk shape s.queue s.tagIncrements l owner) :
    Inv shape { s with owner := owner } l where
  top_lt := h.top_lt
  tag := h.tag
  room := h.room
  holds := h.holds
  bottom := by
    rw [hpopping]
    exact h.bottom
  owner := hok
  thieves := h.thieves
  balance := h.balance
  stored := by
    rw [hstoring]
    exact h.stored

theorem bottom_resting (h : Inv shape s l) (hpopping : s.owner.Popping = false) :
    s.queue.bottom = bottomOf shape s.queue.age.top l.length false := by
  rw [h.bottom, hpopping]

theorem bottom_popping (h : Inv shape s l) (hpopping : s.owner.Popping = true) :
    s.queue.bottom = bottomOf shape s.queue.age.top l.length true := by
  rw [h.bottom, hpopping]

/-- The tags of an age that is installed are counted. -/
theorem tagIncrements_setAge (h : Inv shape s l) {age : Age} {g : Nat}
    (htag : age.tag = g % 2 ^ shape.idxBits)
    (hg : g = s.tagIncrements ∨ g = s.tagIncrements + 1) : (s.setAge age).tagIncrements = g := by
  have hpow : 2 ≤ 2 ^ shape.idxBits :=
    Nat.pow_le_pow_right (by decide : 2 > 0) (by have := shape.sixteen_le; omega : 1 ≤ _)
  simp only [State.setAge]
  rw [htag, h.tag]
  rcases hg with rfl | rfl
  · rw [if_pos rfl]
  · rw [if_neg]
    intro heq
    have hmod : s.tagIncrements + 1 ≡ s.tagIncrements + 0 [MOD 2 ^ shape.idxBits] := heq
    have hzero := Nat.ModEq.add_left_cancel' _ hmod
    rw [Nat.ModEq, Nat.mod_eq_of_lt (by omega), Nat.zero_mod] at hzero
    omega

/-- The push stores its task in the first free element. -/
theorem pushElem (h : Inv shape s l) {t : E} {localBot : Nat}
    (howner : s.owner = .pushElem t localBot) (call : Call E) :
    Inv shape (s.ownerStep shape call) l := by
  have hok := h.owner
  rw [howner] at hok
  obtain ⟨rfl, hroom⟩ := hok
  have hbottom := h.bottom_resting (by rw [howner]; rfl)
  have hindex : s.queue.bottom = (s.queue.age.top + l.length) % shape.N := by
    rw [hbottom, bottomOf, if_neg (by decide)]
  simp only [State.ownerStep, howner]
  refine ⟨h.top_lt, h.tag, h.room, ?_, hbottom, ⟨rfl, hroom, Function.update_self ..⟩, h.thieves,
    h.balance, ?_⟩
  · rw [hindex]
    exact h.holds.update (by omega)
  · have hstored := h.stored
    rw [howner] at hstored
    simp only [Owner.storing, add_zero] at hstored ⊢
    rw [hstored, add_comm, Multiset.singleton_add]

/-- The push lets the others see its task. -/
theorem pushBottom (h : Inv shape s l) {t : E} {localBot : Nat}
    (howner : s.owner = .pushBottom t localBot) (call : Call E) :
    Inv shape (s.ownerStep shape call) (l ++ [t]) := by
  have hok := h.owner
  rw [howner] at hok
  obtain ⟨rfl, hroom, helem⟩ := hok
  have hN := shape.four_le_N
  have hbottom := h.bottom_resting (by rw [howner]; rfl)
  have hindex : s.queue.bottom = (s.queue.age.top + l.length) % shape.N := by
    rw [hbottom, bottomOf, if_neg (by decide)]
  simp only [State.ownerStep, howner]
  refine ⟨h.top_lt, h.tag, ?_, ?_, ?_, trivial, ?_, ?_, ?_⟩
  · rw [List.length_append, List.length_singleton]
    omega
  · exact h.holds.append (hindex ▸ helem)
  · simp only [Owner.Popping, List.length_append, List.length_singleton]
    rw [bottomOf, if_neg (by decide), incrementIndex, hindex, Nat.mod_add_mod]
    rfl
  · intro i
    apply (h.thieves i).keep
    intro u hu
    cases l with
    | nil => cases hu
    | cons a l => exact hu
  · simp only
    rw [h.balance, ← Multiset.coe_add, Multiset.coe_singleton, ← Multiset.singleton_add]
    ac_rfl
  · have hstored := h.stored
    rw [howner] at hstored
    simp only [Owner.storing, add_zero] at hstored ⊢
    rw [hstored, add_comm, Multiset.singleton_add]

/-- The pop takes the last task out of the reach of later thieves. -/
theorem popBottom (h : Inv shape s l) {localBot : Nat} (howner : s.owner = .popBottom localBot)
    (call : Call E) : Inv shape (s.ownerStep shape call) l := by
  have hok := h.owner
  rw [howner] at hok
  have hbottom := h.bottom_resting (by rw [howner]; rfl)
  have hstored := h.stored
  rw [howner] at hstored
  simp only [State.ownerStep, howner]
  refine ⟨h.top_lt, h.tag, h.room, h.holds, ?_, rfl, h.thieves, h.balance, hstored⟩
  simp only [Owner.Popping, OwnerOk] at hok ⊢
  rw [hok, hbottom, decrementIndex, bottomOf, bottomOf, if_neg (by decide), if_pos rfl,
    Nat.mod_add_mod]

/-- The pop has left a task to the thieves, and has its own. -/
theorem popTopAgain (h : Inv shape s l) {localBot : Nat} {t : E}
    (howner : s.owner = .popTopAgain localBot t)
    (hmore : 0 < size shape localBot s.queue.age.top) :
    ∃ l', Inv shape (s.returnTask t) l' := by
  have hok := h.owner
  rw [howner] at hok
  obtain ⟨rfl, rfl⟩ := hok
  have hbottom := h.bottom_popping (by rw [howner]; rfl)
  rw [size, hbottom, dirtySize_popping h.top_lt h.room] at hmore
  have hlen : 2 ≤ l.length := by
    split_ifs at hmore <;> omega
  obtain ⟨l, t, rfl⟩ : ∃ l' t, l = l' ++ [t] :=
    ⟨_, _, (List.dropLast_append_getLast (List.ne_nil_of_length_pos (by omega))).symm⟩
  rw [List.length_append, List.length_singleton] at hbottom hlen
  rw [bottomOf_dropLast] at hbottom
  have hroom := h.room
  rw [List.length_append, List.length_singleton] at hroom
  obtain ⟨hholds, hlast⟩ := h.holds.dropLast
  have helem : s.queue.elems s.queue.bottom = t := by
    rw [hbottom, bottomOf, if_neg (by decide)]
    exact hlast
  rw [helem]
  refine ⟨l, h.top_lt, h.tag, by omega, hholds, hbottom, trivial, ?_, ?_, ?_⟩
  · intro i
    apply (h.thieves i).keep
    intro u hu
    cases l with
    | nil => simp at hlen
    | cons a l => exact hu
  · simp only [State.returnTask]
    rw [h.balance, ← Multiset.coe_add, Multiset.coe_singleton, ← Multiset.singleton_add]
    ac_rfl
  · have hstored := h.stored
    rw [howner] at hstored
    exact hstored

/-- The pop empties the queue with a new age. -/
theorem install (h : Inv shape s l) {age : Age} {g : Nat} (hpopping : s.owner.Popping = true)
    (htop : age.top = s.queue.bottom) (htag : age.tag = g % 2 ^ shape.idxBits)
    (hg : g = s.tagIncrements + 1 ∨
      g = s.tagIncrements ∧ s.queue.age.top = 0 ∧ age.top = shape.N - 1)
    {popped : Multiset E} (hbalance : s.pushed = popped) :
    Inv shape { s.setAge age with owner := .idle, popped := popped } [] := by
  have hN := shape.four_le_N
  have hlt := @bottomOf_lt shape s.queue.age.top l.length true
  rw [← h.bottom_popping hpopping, ← htop] at hlt
  have htags := h.tagIncrements_setAge htag (hg.elim .inr fun hg => .inl hg.1)
  have hraise : Raises s.queue.age.top s.tagIncrements age.top g := by
    rcases hg with hg | ⟨hg, hzero, hmax⟩
    · left
      omega
    · right
      omega
  refine ⟨hlt, ?_, Nat.zero_le _, .nil _ _, ?_, trivial, ?_, ?_, ?_⟩
  · simp only [htags]
    exact htag
  · simp only [State.setAge, Owner.Popping, List.length_nil]
    rw [← htop, bottomOf, if_neg (by decide), Nat.add_zero, Nat.mod_eq_of_lt hlt]
  · intro i
    simp only [htags]
    exact (h.thieves i).raise hraise
  · rw [Multiset.coe_nil, zero_add]
    exact hbalance
  · have hstored := h.stored
    rw [Owner.storing_of_popping hpopping] at hstored
    exact hstored

/-- The pop takes the only task. -/
theorem popSlowExchange (h : Inv shape s l) {localBot : Nat} {t : E} {oldAge : Age}
    (howner : s.owner = .popSlowExchange localBot t oldAge) (hage : s.queue.age = oldAge) :
    Inv shape ((s.setAge ⟨localBot, incrementTag shape oldAge.tag⟩).returnTask t) [] := by
  have hok := h.owner
  rw [howner] at hok
  obtain ⟨rfl, rfl, hlen, htop, -, -⟩ := hok
  have hpopping : s.owner.Popping = true := by rw [howner]; rfl
  have hbottom := h.bottom_popping hpopping
  have hdirty := dirtySize_popping h.top_lt h.room
  rw [← hbottom, hage, htop, dirtySize_eq (hbottom ▸ bottomOf_lt _ _ _)
    (hbottom ▸ bottomOf_lt _ _ _), if_pos (Nat.le_refl _), Nat.sub_self] at hdirty
  have hN := shape.four_le_N
  obtain ⟨u, rfl⟩ : ∃ u, l = [u] := by
    apply List.length_eq_one_iff.mp
    split_ifs at hdirty <;> omega
  have hhead := h.holds.head
  rw [Nat.mod_eq_of_lt h.top_lt, hage, htop] at hhead
  rw [hhead]
  have htag : incrementTag shape oldAge.tag = (s.tagIncrements + 1) % 2 ^ shape.idxBits := by
    rw [← hage, h.tag, incrementTag, Nat.mod_add_mod]
  have hbalance : s.pushed = u ::ₘ s.popped := by simpa using h.balance
  exact h.install hpopping rfl htag (.inl rfl) hbalance

/-- The pop repairs the age. -/
theorem popSlowSet (h : Inv shape s l) {newAge : Age} (howner : s.owner = .popSlowSet newAge) :
    Inv shape { s.setAge newAge with owner := .idle } [] := by
  have hok := h.owner
  rw [howner] at hok
  obtain ⟨htop, rfl, g, htag, hg⟩ := hok
  have hbalance : s.pushed = s.popped := by simpa using h.balance
  exact h.install (by rw [howner]; rfl) htop htag hg hbalance

theorem pushTop (h : Inv shape s l) {t : E} {localBot : Nat}
    (howner : s.owner = .pushTop t localBot) (call : Call E) :
    Inv shape (s.ownerStep shape call) l := by
  have hok := h.owner
  rw [howner] at hok
  obtain rfl : localBot = s.queue.bottom := hok
  have hN := shape.four_le_N
  have hroom := h.room
  have hdirty := dirtySize_resting h.top_lt h.room
  rw [← h.bottom_resting (by rw [howner]; rfl)] at hdirty
  simp only [State.ownerStep, howner, hdirty, maxElems]
  split
  next hlt => exact h.setOwner (by rw [howner]; rfl) (by rw [howner]; rfl) ⟨rfl, hlt⟩
  next =>
    split
    next heq => omega
    next => exact h.setOwner (by rw [howner]; rfl) (by rw [howner]; rfl) trivial

theorem popSlowAge (h : Inv shape s l) {localBot : Nat} {t : E}
    (howner : s.owner = .popSlowAge localBot t) (call : Call E) :
    Inv shape (s.ownerStep shape call) l := by
  have hok := h.owner
  rw [howner] at hok
  obtain ⟨rfl, ht, hlen⟩ := hok
  have hN := shape.four_le_N
  have htag : incrementTag shape s.queue.age.tag =
      (s.tagIncrements + 1) % 2 ^ shape.idxBits := by
    rw [h.tag, incrementTag, Nat.mod_add_mod]
  simp only [State.ownerStep, howner]
  split
  next htop =>
    exact h.setOwner (by rw [howner]; rfl) (by rw [howner]; rfl)
      ⟨rfl, ht, hlen, htop.symm, fun _ => rfl, fun _ => ⟨_, htag, .inl rfl⟩⟩
  next htop =>
    have hbottom := h.bottom_popping (by rw [howner]; rfl)
    rw [bottomOf_popping h.top_lt h.room] at hbottom
    have hnil : l = [] := by
      apply List.eq_nil_of_length_eq_zero
      have := h.top_lt
      split_ifs at hbottom <;> omega
    exact h.setOwner (by rw [howner]; rfl) (by rw [howner]; rfl)
      ⟨rfl, hnil, ⟨_, htag, .inl rfl⟩⟩

/-- Every step of the owner keeps the invariant. -/
theorem ownerStep (h : Inv shape s l) (call : Call E) :
    ∃ l', Inv shape (s.ownerStep shape call) l' := by
  have hok := h.owner
  cases howner : s.owner with
  | idle =>
    refine ⟨l, ?_⟩
    simp only [State.ownerStep, howner]
    cases call with
    | push t => exact h.setOwner (by rw [howner]; rfl) (by rw [howner]; rfl) rfl
    | popLocal => exact h.setOwner (by rw [howner]; rfl) (by rw [howner]; rfl) rfl
  | pushTop t localBot => exact ⟨l, h.pushTop howner call⟩
  | pushSlowBottom t =>
    rw [howner] at hok
    cases hok
  | pushElem t localBot => exact ⟨l, h.pushElem howner call⟩
  | pushBottom t localBot => exact ⟨_, h.pushBottom howner call⟩
  | popTop localBot =>
    refine ⟨l, ?_⟩
    rw [howner] at hok
    obtain rfl : localBot = s.queue.bottom := hok
    simp only [State.ownerStep, howner]
    split
    next => exact h.setOwner (by rw [howner]; rfl) (by rw [howner]; rfl) trivial
    next => exact h.setOwner (by rw [howner]; rfl) (by rw [howner]; rfl) rfl
  | popBottom localBot => exact ⟨l, h.popBottom howner call⟩
  | popElem localBot =>
    refine ⟨l, ?_⟩
    rw [howner] at hok
    simp only [State.ownerStep, howner]
    exact h.setOwner (by rw [howner]; rfl) (by rw [howner]; rfl) ⟨hok, rfl⟩
  | popTopAgain localBot t =>
    simp only [State.ownerStep, howner]
    split
    next hmore => exact h.popTopAgain howner hmore
    next hless =>
      rw [howner] at hok
      obtain ⟨rfl, ht⟩ := hok
      have hN := shape.four_le_N
      have hroom := h.room
      rw [size, h.bottom_popping (by rw [howner]; rfl), dirtySize_popping h.top_lt h.room] at hless
      refine ⟨l, h.setOwner (by rw [howner]; rfl) (by rw [howner]; rfl) ⟨rfl, ht, ?_⟩⟩
      split_ifs at hless <;> omega
  | popSlowAge localBot t => exact ⟨l, h.popSlowAge howner call⟩
  | popSlowExchange localBot t oldAge =>
    simp only [State.ownerStep, howner]
    split
    next hage => exact ⟨[], h.popSlowExchange howner hage⟩
    next hage =>
      rw [howner] at hok
      obtain ⟨rfl, ht, hlen, htop, hsame, htag⟩ := hok
      have hnil : l = [] := by
        by_contra hne
        exact hage (hsame hne)
      exact ⟨l, h.setOwner (by rw [howner]; rfl) (by rw [howner]; rfl) ⟨rfl, hnil, htag hnil⟩⟩
  | popSlowSet newAge =>
    simp only [State.ownerStep, howner]
    exact ⟨[], h.popSlowSet howner⟩

/-! ## Steps of the thieves -/

theorem setThief [DecidableEq ι] (h : Inv shape s l) {i : ι} {thief : Thief E}
    (hok : ThiefOk shape s.queue.age.top s.tagIncrements l thief) :
    Inv shape (s.setThief i thief) l where
  top_lt := h.top_lt
  tag := h.tag
  room := h.room
  holds := h.holds
  bottom := h.bottom
  owner := h.owner
  thieves j := by
    simp only [State.setThief, Function.update_apply]
    split
    next => exact hok
    next => exact h.thieves j
  balance := h.balance
  stored := h.stored

/-- A fresh thief is one whose exchange succeeds: the tag has not come round. -/
theorem fresh_of_age_eq (h : Inv shape s l) {oldAge : Age} {since : Nat}
    (hseen : Seen shape s.queue.age.top s.tagIncrements oldAge since)
    (hfew : s.tagIncrements - since < 2 ^ 16) (hage : s.queue.age = oldAge) :
    Fresh s.queue.age.top s.tagIncrements oldAge since := by
  have hpow : 2 ^ 16 ≤ 2 ^ shape.idxBits := Nat.pow_le_pow_right (by decide) shape.sixteen_le
  obtain ⟨hsince, htag, -⟩ := hseen
  refine ⟨?_, by rw [hage]⟩
  rw [← hage, h.tag] at htag
  have hmod : since + (s.tagIncrements - since) ≡ since + 0 [MOD 2 ^ shape.idxBits] := by
    rw [Nat.add_zero, Nat.add_sub_cancel' hsince]
    exact htag
  have hzero := Nat.ModEq.add_left_cancel' _ hmod
  rw [Nat.ModEq, Nat.mod_eq_of_lt (by omega), Nat.zero_mod] at hzero
  omega

/-- The owner does not notice that the first task is taken. -/
theorem ownerOk_take {t : E} (h : Inv shape s (t :: l)) {tags : Nat}
    (htags : tags = s.tagIncrements + 1 ∧ incrementIndex shape s.queue.age.top = 0 ∨
      tags = s.tagIncrements ∧ incrementIndex shape s.queue.age.top ≠ 0) :
    OwnerOk shape { s.queue with age := s.queue.age.increment shape } tags l s.owner := by
  have hok := h.owner
  have hlen : (t :: l).length = l.length + 1 := List.length_cons
  cases howner : s.owner with
  | idle => trivial
  | pushTop u localBot => rwa [howner] at hok
  | pushSlowBottom u => rwa [howner] at hok
  | pushElem u localBot =>
    rw [howner] at hok
    exact ⟨hok.1, by have := hok.2; omega⟩
  | pushBottom u localBot =>
    rw [howner] at hok
    exact ⟨hok.1, by have := hok.2.1; omega, hok.2.2⟩
  | popTop localBot => rwa [howner] at hok
  | popBottom localBot => rwa [howner] at hok
  | popElem localBot => rwa [howner] at hok
  | popTopAgain localBot u => rwa [howner] at hok
  | popSlowAge localBot u =>
    rw [howner] at hok
    exact ⟨hok.1, hok.2.1, by have := hok.2.2; omega⟩
  | popSlowExchange localBot u oldAge =>
    rw [howner] at hok
    obtain ⟨hbot, hu, hle, htop, hsame, -⟩ := hok
    have hnil : l = [] := List.eq_nil_of_length_eq_zero (by omega)
    have hage := hsame (by simp)
    refine ⟨hbot, hu, by omega, htop, fun hne => absurd hnil hne, fun _ => ?_⟩
    refine ⟨s.tagIncrements + 1, ?_, ?_⟩
    · rw [← hage, h.tag, incrementTag, Nat.mod_add_mod]
    · rcases htags with ⟨rfl, hzero⟩ | ⟨rfl, -⟩
      · right
        refine ⟨rfl, hzero, ?_⟩
        rw [← htop, ← hage]
        rw [incrementIndex_eq h.top_lt] at hzero
        split_ifs at hzero
        omega
      · exact .inl rfl
  | popSlowSet newAge =>
    rw [howner] at hok
    cases hok.2.1

/-- A thief takes the first task. -/
theorem take [DecidableEq ι] {t : E} (h : Inv shape s (t :: l)) (i : ι) :
    Inv shape { (s.setAge (s.queue.age.increment shape)).setThief i .idle with
      popped := t ::ₘ s.popped } l := by
  have hN := shape.four_le_N
  have hnext := incrementIndex_eq h.top_lt
  have hlt : incrementIndex shape s.queue.age.top < shape.N := Nat.mod_lt _ (by omega)
  -- the number of tag increments afterwards
  obtain ⟨g, htag, hg⟩ : ∃ g, (s.queue.age.increment shape).tag = g % 2 ^ shape.idxBits ∧
      (g = s.tagIncrements + 1 ∧ incrementIndex shape s.queue.age.top = 0 ∨
        g = s.tagIncrements ∧ incrementIndex shape s.queue.age.top ≠ 0) := by
    simp only [Age.increment]
    split
    next hzero =>
      refine ⟨s.tagIncrements + 1, ?_, .inl ⟨rfl, hzero⟩⟩
      rw [h.tag, incrementTag, Nat.mod_add_mod]
    next hne => exact ⟨s.tagIncrements, h.tag, .inr ⟨rfl, hne⟩⟩
  have htags := h.tagIncrements_setAge htag (hg.elim (fun hg => .inr hg.1) fun hg => .inl hg.1)
  have hraise : Raises s.queue.age.top s.tagIncrements
      (incrementIndex shape s.queue.age.top) g := by
    rcases hg with ⟨hg, -⟩ | ⟨hg, hne⟩
    · left
      omega
    · right
      split_ifs at hnext <;> omega
  have hroom := h.room
  have hbottom := h.bottom
  rw [List.length_cons] at hroom hbottom
  refine ⟨hlt, ?_, by omega, h.holds.tail, ?_, ?_, ?_, ?_, h.stored⟩
  · simp only [State.setThief, htags]
    exact htag
  · exact hbottom.trans bottomOf_tail.symm
  · simp only [State.setThief, htags]
    exact h.ownerOk_take hg
  · intro j
    simp only [State.setThief, htags, Function.update_apply]
    split
    next => trivial
    next => exact (h.thieves j).raise hraise
  · refine h.balance.trans ?_
    rw [← Multiset.cons_coe, Multiset.cons_add, ← Multiset.add_cons]

/-- Every step of a thief keeps the invariant. -/
theorem thiefStep [DecidableEq ι] (h : Inv shape s l) (hfew : FewIncrements s) (i : ι) :
    ∃ l', Inv shape (s.thiefStep shape i) l' := by
  have hok := h.thieves i
  cases hthief : s.thieves i with
  | idle =>
    simp only [State.thiefStep, hthief]
    exact ⟨l, h.setThief ⟨Nat.le_refl _, h.tag, fun _ => Nat.le_refl _⟩⟩
  | readBottom oldAge since =>
    rw [hthief] at hok
    simp only [State.thiefStep, hthief]
    split
    next => exact ⟨l, h.setThief trivial⟩
    next hsome =>
      refine ⟨l, h.setThief ⟨hok, ?_⟩⟩
      rintro ⟨-, htop⟩ rfl
      have hN := shape.four_le_N
      apply hsome
      rw [htop, size, h.bottom]
      cases s.owner.Popping with
      | false => rw [dirtySize_resting h.top_lt h.room]; simp
      | true => rw [dirtySize_popping h.top_lt h.room]; simp
  | readElem oldAge since =>
    rw [hthief] at hok
    simp only [State.thiefStep, hthief]
    refine ⟨l, h.setThief ⟨hok.1, fun hfresh => ?_⟩⟩
    obtain ⟨t, rest, rfl⟩ := List.exists_cons_of_ne_nil (hok.2 hfresh)
    have hhead := h.holds.head
    rw [Nat.mod_eq_of_lt h.top_lt, ← hfresh.2] at hhead
    rw [hhead, List.head?_cons]
  | exchange oldAge since t =>
    rw [hthief] at hok
    simp only [State.thiefStep, hthief]
    split
    next hage =>
      have hsince := hfew i since (by rw [hthief]; rfl)
      have hhead := hok.2 (h.fresh_of_age_eq hok.1 hsince hage)
      cases l with
      | nil => cases hhead
      | cons u l =>
        obtain rfl : u = t := Option.some.inj hhead
        rw [← hage]
        exact ⟨l, h.take i⟩
    next => exact ⟨l, h.setThief trivial⟩

end Inv

/-! ## All runs -/

/-- The dirty sizes that the owner computes at its next step. -/
def OwnerObserves (shape : Shape) (s : State ι E) (dirtyNElems : Nat) : Prop :=
  match s.owner with
  | .pushTop _ localBot => dirtySize shape localBot s.queue.age.top = dirtyNElems
  | .popTop localBot => dirtySize shape localBot s.queue.age.top = dirtyNElems
  | .popTopAgain localBot _ => dirtySize shape localBot s.queue.age.top = dirtyNElems
  | _ => False

/-- The dirty sizes that a thief computes at its next step, from the age that it has read
before. -/
def ThiefObserves (shape : Shape) (s : State ι E) (dirtyNElems : Nat) : Prop :=
  ∃ i oldAge since, s.thieves i = .readBottom oldAge since ∧
    dirtySize shape s.queue.bottom oldAge.top = dirtyNElems

/-- Each task pushed is in the queue or has been returned by one pop, only the pushes that
succeed store a task, and the dirty size is N-1 only while the owner pops. -/
structure Sound (shape : Shape) (s : State ι E) : Prop where
  conserved : s.pushed = (s.queued shape : Multiset E) + s.popped
  stores : s.stored = s.pushed + s.owner.storing
  dirty : dirtySize shape s.queue.bottom s.queue.age.top = shape.N - 1 → s.owner.Popping = true
  observed : OwnerObserves shape s (shape.N - 1) → s.owner.Popping = true

section Runs

variable {s : State ι E} {l : List E}

theorem Inv.queued_eq (h : Inv shape s l) : s.queued shape = l := by
  have hN := shape.four_le_N
  have hroom := h.room
  have hcount : s.count shape = l.length := by
    rw [State.count, h.bottom]
    cases s.owner.Popping with
    | false => simp [dirtySize_resting h.top_lt h.room]
    | true =>
      simp only [dirtySize_popping h.top_lt h.room, if_true]
      split_ifs <;> omega
  rw [State.queued, hcount]
  exact h.holds.eq_map

theorem Inv.sound (h : Inv shape s l) : Sound shape s := by
  have hN := shape.four_le_N
  have hroom := h.room
  have hdirty : dirtySize shape s.queue.bottom s.queue.age.top = shape.N - 1 →
      s.owner.Popping = true := by
    intro hmax
    by_contra hresting
    rw [Bool.not_eq_true] at hresting
    rw [h.bottom_resting hresting, dirtySize_resting h.top_lt h.room] at hmax
    omega
  refine ⟨by rw [h.queued_eq]; exact h.balance, h.stored, hdirty, ?_⟩
  intro hobserved
  have hok := h.owner
  cases howner : s.owner with
  | pushTop t localBot =>
    simp only [OwnerObserves, howner] at hobserved hok
    rw [← howner]
    exact hdirty (hok ▸ hobserved)
  | popTop localBot =>
    simp only [OwnerObserves, howner] at hobserved hok
    rw [← howner]
    exact hdirty (hok ▸ hobserved)
  | popTopAgain localBot t => rfl
  | _ => simp only [OwnerObserves, howner] at hobserved

theorem inv_initial [DecidableEq ι] (elems : Nat → E) :
    Inv shape (initial elems : State ι E) [] := by
  have hN := shape.four_le_N
  refine ⟨by simp only [initial]; omega, by simp [initial], Nat.zero_le _, .nil _ _, ?_, trivial,
    fun _ => trivial, rfl, rfl⟩
  simp [initial, bottomOf, Owner.Popping]

/-- In every run in which no tag comes round during one global pop, no task is lost or
duplicated. -/
theorem reachable_sound [DecidableEq ι] {elems : Nat → E}
    (hreach : (system shape elems).Reachable s) : Sound shape s := by
  have hinv : FewIncrements s ∧ ∃ l, Inv shape s l := by
    refine hreach.invariant (P := fun s => FewIncrements s ∧ ∃ l, Inv shape s l) ?_ ?_
    · rintro _ rfl
      refine ⟨?_, [], inv_initial elems⟩
      intro i since hsince
      cases hsince
    · rintro s s' ⟨hfew, l, h⟩ ⟨⟨call, rfl⟩ | ⟨i, rfl⟩, hfew'⟩
      · exact ⟨hfew', h.ownerStep call⟩
      · exact ⟨hfew', h.thiefStep hfew i⟩
  obtain ⟨-, l, h⟩ := hinv
  exact h.sound

end Runs

/-! ## A stale thief -/

/-- Takes steps: of a thief, or of the owner, with what it calls when it is idle. -/
def runMoves [DecidableEq ι] (shape : Shape) (moves : List (ι ⊕ Call E)) (s : State ι E) :
    State ι E :=
  moves.foldl (fun s move => move.elim (s.thiefStep shape) (s.ownerStep shape)) s

/-- Steps without a tag increment make a run. -/
theorem reachable_runMoves [DecidableEq ι] {elems : Nat → E} {moves : List (ι ⊕ Call E)}
    {s : State ι E} (hreach : (system shape elems).Reachable s)
    (hfew : ∀ k ≤ moves.length, (runMoves shape (moves.take k) s).tagIncrements < 2 ^ 16) :
    (system shape elems).Reachable (runMoves shape moves s) := by
  induction moves generalizing s with
  | nil => exact hreach
  | cons move rest ih =>
    have hfirst := hfew 1 (by simp)
    apply ih
    · refine hreach.step ⟨?_, fun i since _ => ?_⟩
      · cases move with
        | inl i => exact .inr ⟨i, rfl⟩
        | inr call => exact .inl ⟨call, rfl⟩
      · simp only [runMoves, List.take_succ_cons, List.take_zero, List.foldl_cons,
          List.foldl_nil] at hfirst
        exact Nat.lt_of_le_of_lt (Nat.sub_le _ _) hfirst
    · intro k hk
      have := hfew (k + 1) (by simpa using hk)
      rwa [List.take_succ_cons] at this

theorem two_le_logSmall : 2 ≤ 2 := Nat.le_refl 2

/-- A queue of four elements. -/
def smallShape : Shape := ⟨2, 32, two_le_logSmall, sixteen_le_intBits⟩

/-- Thief 1 reads the age of a queue with one task. Thief 0 takes the task, and the owner
pushes two more. -/
def staleMoves : List (Fin 2 ⊕ Call Nat) :=
  List.replicate 4 (.inr (.push 7)) ++ [.inl 1] ++ List.replicate 4 (.inl 0) ++
    List.replicate 8 (.inr (.push 8))

def staleState : State (Fin 2) Nat := runMoves smallShape staleMoves (initial fun _ => 0)

theorem reachable_stale : (system smallShape fun _ => 0).Reachable staleState := by
  refine reachable_runMoves (.of_init rfl) ?_
  decide

theorem reachable_sound_stale :
    (system smallShape fun _ => 0).Reachable staleState ∧ Sound smallShape staleState :=
  ⟨reachable_stale, reachable_sound reachable_stale⟩

/-- The reads of a thief are at different times: thief 1 computes the dirty size N-1, though
the owner has not popped at all. -/
theorem stale_thief_observes_dirty :
    ¬ ∀ s : State (Fin 2) Nat, (system smallShape fun _ => 0).Reachable s →
      OwnerObserves smallShape s (smallShape.N - 1) ∨
        ThiefObserves smallShape s (smallShape.N - 1) → s.owner.Popping = true := by
  intro hclaim
  have hthief : ThiefObserves smallShape staleState (smallShape.N - 1) :=
    ⟨1, ⟨0, 0⟩, 0, rfl, rfl⟩
  exact absurd (hclaim staleState reachable_stale (.inr hthief)) (by decide)

end HotSpot.TaskQueue
