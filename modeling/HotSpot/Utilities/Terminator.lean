import HotSpot.Utilities.TaskQueue
import Mathlib

/-! # Termination of parallel workers

`ParallelTaskTerminator` of `taskqueue.cpp`. Each of `n` workers owns a queue of a queue set;
it works on tasks that it pops from its own queue or steals from the others, and calls
`offer_termination` when it has none left. The workers interleave in any order, one atomic
step at a time.
-/

namespace HotSpot.ParallelTaskTerminator

open TaskQueue (Shape)

/-! ## Steps -/

/-- Where a worker is. -/
inductive Phase where
  /-- Outside of `offer_termination`. -/
  | working
  /-- About to compare the number of offers with the number of threads. -/
  | comparing
  /-- In the loop of `GenericTaskQueueSet::peek`, at a queue. -/
  | peeking (j : Nat)
  /-- Has peeked work, and is about to take the offer back. -/
  | leaving
  /-- Has returned true. -/
  | terminated
  deriving DecidableEq, Repr

structure Worker (E : Type*) where
  phase : Phase
  /-- The tasks that the worker has taken and not finished. -/
  held : List E

structure State (n : Nat) (E : Type*) where
  queues : Fin n → TaskQueue E
  workers : Fin n → Worker E
  offeredTermination : Nat

/-- The atomic steps of a worker: those of its work, and those of `offer_termination`. -/
inductive Action (n : Nat) (E : Type*) where
  | push (t : E)
  | popLocal
  | steal (victim : Fin n)
  | finish (i : Nat)
  | increment
  | compare
  | peek
  | decrement

variable {n : Nat} {E : Type*} (shape : Shape)

namespace State

variable (s : State n E) (w : Fin n)

/-- The worker goes on to another phase. -/
def move (phase : Phase) : State n E :=
  { s with workers := Function.update s.workers w { s.workers w with phase := phase } }

/-- The worker has changed a queue and what it holds. -/
def work (k : Fin n) (q : TaskQueue E) (held : List E) : State n E :=
  { s with queues := Function.update s.queues k q,
           workers := Function.update s.workers w { s.workers w with held := held } }

/-- One step of a worker, with what `offer_termination` returns if it returns. Spinning,
yielding and sleeping change nothing. -/
def step (action : Action n E) : Option (State n E × Option Bool) :=
  match action, (s.workers w).phase with
  | .push t, .working =>
    -- new tasks come from tasks; one that the queue has no room for stays with the worker
    if (s.workers w).held = [] then none
    else
      let pushed := (s.queues w).push shape t
      some (s.work w w pushed.1
        (if pushed.2 then (s.workers w).held else t :: (s.workers w).held), none)
  | .popLocal, .working =>
    let popped := (s.queues w).popLocal shape
    some (s.work w w popped.1 (popped.2.toList ++ (s.workers w).held), none)
  | .steal victim, .working =>
    if victim = w then none
    else
      let popped := (s.queues victim).popGlobal shape
      some (s.work w victim popped.1 (popped.2.toList ++ (s.workers w).held), none)
  | .finish i, .working =>
    if i < (s.workers w).held.length then
      some (s.work w w (s.queues w) ((s.workers w).held.eraseIdx i), none)
    else none
  | .increment, .working =>
    -- the call is made with an empty queue and nothing in hand
    if (s.workers w).held = [] ∧
        TaskQueue.size shape (s.queues w).bottom (s.queues w).age.top = 0 then
      some ({ s.move w .comparing with offeredTermination := s.offeredTermination + 1 }, none)
    else none
  | .compare, .comparing =>
    if s.offeredTermination = n then some (s.move w .terminated, some true)
    else some (s.move w (.peeking 0), none)
  | .peek, .peeking j =>
    if h : j < n then
      if (s.queues ⟨j, h⟩).peek then some (s.move w .leaving, none)
      else some (s.move w (.peeking (j + 1)), none)
    else some (s.move w .comparing, none)
  | .decrement, .leaving =>
    some ({ s.move w .working with offeredTermination := s.offeredTermination - 1 }, some false)
  | _, _ => none

end State

/-- All workers are at work, with any tasks in hand and in their queues. -/
structure Start (s : State n E) : Prop where
  offered : s.offeredTermination = 0
  working : ∀ w, (s.workers w).phase = .working
  canonical : ∀ w, (s.queues w).Canonical shape

/-- The runs whose steps are all `allowed`, with what the calls of `offer_termination` have
returned so far. -/
inductive Run (allowed : State n E → Fin n → Action n E → Prop) (start : State n E) :
    State n E → List (Fin n × Bool) → Prop where
  | start : Run allowed start start []
  | step {s s' : State n E} {returns : List (Fin n × Bool)} {w : Fin n} {action : Action n E}
      {result : Option Bool} : Run allowed start s returns → allowed s w action →
      s.step shape w action = some (s', result) →
      Run allowed start s' (returns ++ result.toList.map (w, ·))

/-- Once a worker has returned true all queues are empty, no worker holds a task, the offers
stand, and none returns false. -/
def Agreement (s : State n E) (returns : List (Fin n × Bool)) : Prop :=
  ∀ before w after, returns = before ++ (w, true) :: after →
    (∀ v, TaskQueue.size shape (s.queues v).bottom (s.queues v).age.top = 0) ∧
      (∀ v, (s.workers v).held = []) ∧ s.offeredTermination = n ∧ ∀ v, (v, false) ∉ after

/-! ## What a step does -/

/-- The worker has nothing in hand and nothing in its queue. -/
def Quiet (s : State n E) (w : Fin n) : Prop :=
  (s.workers w).held = [] ∧ (s.queues w).peek = false

/-- In the loop of `offer_termination`, with no decision yet. -/
def Phase.Waiting : Phase → Prop
  | .comparing => True
  | .peeking _ => True
  | _ => False

/-- The effects that a step can have. -/
inductive Effect (s : State n E) (w : Fin n) : State n E → Option Bool → Prop where
  /-- Work changes no phase and no offer, and comes from work. -/
  | work {s' : State n E} (hphase : (s.workers w).phase = .working)
      (hphases : ∀ v, (s'.workers v).phase = (s.workers v).phase)
      (hoffered : s'.offeredTermination = s.offeredTermination)
      (hcanonical : ∀ v, (s'.queues v).Canonical shape)
      (hothers : ∀ v, v ≠ w → Quiet s v → Quiet s' v)
      (hquiet : (∀ v, Quiet s v) → Quiet s' w) : Effect s w s' none
  | offer (hphase : (s.workers w).phase = .working) (hquiet : Quiet s w) :
      Effect s w { s.move w .comparing with offeredTermination := s.offeredTermination + 1 } none
  | agree (hphase : (s.workers w).phase = .comparing) (hall : s.offeredTermination = n) :
      Effect s w (s.move w .terminated) (some true)
  | wait {phase : Phase} (hphase : (s.workers w).phase.Waiting) (hnext : phase.Waiting) :
      Effect s w (s.move w phase) none
  | found {k : Fin n} (hphase : (s.workers w).phase.Waiting) (hpeek : (s.queues k).peek = true) :
      Effect s w (s.move w .leaving) none
  | leave (hphase : (s.workers w).phase = .leaving) :
      Effect s w { s.move w .working with offeredTermination := s.offeredTermination - 1 }
        (some false)

section Frame

variable (s : State n E) (w v k : Fin n) (q : TaskQueue E) (held : List E) (phase : Phase)

theorem held_move : ((s.move w phase).workers v).held = (s.workers v).held := by
  simp only [State.move, Function.update_apply]
  split
  next hv => rw [hv]
  next => rfl

theorem phase_move : ((s.move w phase).workers v).phase =
    if v = w then phase else (s.workers v).phase := by
  simp only [State.move, Function.update_apply]
  split <;> rfl

theorem phase_work : ((s.work w k q held).workers v).phase = (s.workers v).phase := by
  simp only [State.work, Function.update_apply]
  split
  next hv => rw [hv]
  next => rfl

theorem held_work : ((s.work w k q held).workers v).held =
    if v = w then held else (s.workers v).held := by
  simp only [State.work, Function.update_apply]
  split <;> rfl

theorem queues_work : (s.work w k q held).queues v = if v = k then q else s.queues v := by
  simp only [State.work, Function.update_apply]

theorem quiet_move : Quiet (s.move w phase) v ↔ Quiet s v := by
  rw [Quiet, Quiet, held_move]
  rfl

end Frame

section Step

variable {shape} {s s' : State n E} {w : Fin n} {action : Action n E} {result : Option Bool}

/-- Work on a queue: one that is quiet stays so. -/
theorem effect_of_work {k : Fin n} {q : TaskQueue E} {held : List E}
    (hcanonical : ∀ v, (s.queues v).Canonical shape) (hphase : (s.workers w).phase = .working)
    (hq : q.Canonical shape) (hempty : k ≠ w → (s.queues k).peek = false → q.peek = false)
    (hquiet : (∀ v, Quiet s v) → held = [] ∧ q.peek = false) :
    Effect shape s w (s.work w k q held) none := by
  apply Effect.work hphase (fun v => phase_work s w v k q held) rfl
  · intro v
    rw [queues_work]
    split
    next => exact hq
    next => exact hcanonical v
  · intro v hv hother
    rw [Quiet, held_work, queues_work, if_neg hv]
    refine ⟨hother.1, ?_⟩
    split
    next hk => exact hempty (hk ▸ hv) (hk ▸ hother.2)
    next => exact hother.2
  · intro hall
    rw [Quiet, held_work, queues_work, if_pos rfl]
    refine ⟨(hquiet hall).1, ?_⟩
    split
    next => exact (hquiet hall).2
    next => exact (hall w).2

theorem effect_of_step (hcanonical : ∀ v, (s.queues v).Canonical shape)
    (hstep : s.step shape w action = some (s', result)) : Effect shape s w s' result := by
  unfold State.step at hstep
  split at hstep
  next t hphase =>
    split at hstep
    next => cases hstep
    next hheld =>
      obtain ⟨rfl, rfl⟩ := Prod.mk.inj (Option.some.inj hstep)
      exact effect_of_work hcanonical hphase ((hcanonical w).push t) (fun h => absurd rfl h)
        fun hall => absurd (hall w).1 hheld
  next hphase =>
    obtain ⟨rfl, rfl⟩ := Prod.mk.inj (Option.some.inj hstep)
    refine effect_of_work hcanonical hphase (hcanonical w).popLocal (fun h => absurd rfl h) ?_
    intro hall
    rw [(hcanonical w).popLocal_of_empty (hall w).2]
    exact ⟨(hall w).1, (hall w).2⟩
  next victim hphase =>
    split at hstep
    next => cases hstep
    next hother =>
      obtain ⟨rfl, rfl⟩ := Prod.mk.inj (Option.some.inj hstep)
      refine effect_of_work hcanonical hphase (hcanonical victim).popGlobal ?_ ?_
      · intro _ hempty
        rw [(hcanonical victim).popGlobal_of_empty hempty]
        exact hempty
      · intro hall
        rw [(hcanonical victim).popGlobal_of_empty (hall victim).2]
        exact ⟨(hall w).1, (hall victim).2⟩
  next i hphase =>
    split at hstep
    next hlt =>
      cases hstep
      refine effect_of_work hcanonical hphase (hcanonical w) (fun h => absurd rfl h) ?_
      intro hall
      rw [(hall w).1] at hlt
      cases hlt
    next => cases hstep
  next hphase =>
    split at hstep
    next hidle =>
      cases hstep
      exact .offer hphase ⟨hidle.1, (hcanonical w).size_eq_zero_iff.mp hidle.2⟩
    next => cases hstep
  next hphase =>
    split at hstep
    next hall =>
      cases hstep
      exact .agree hphase hall
    next =>
      cases hstep
      exact .wait (by rw [hphase]; trivial) trivial
  next j hphase =>
    split at hstep
    next hj =>
      split at hstep
      next hpeek =>
        cases hstep
        exact .found (by rw [hphase]; trivial) hpeek
      next =>
        cases hstep
        exact .wait (by rw [hphase]; trivial) trivial
    next =>
      cases hstep
      exact .wait (by rw [hphase]; trivial) trivial
  next hphase =>
    cases hstep
    exact .leave hphase
  next => cases hstep

end Step

/-! ## Invariants -/

/-- The workers inside `offer_termination`, or returned from it with true. -/
def offering (s : State n E) : Finset (Fin n) :=
  Finset.univ.filter fun w => (s.workers w).phase ≠ .working

theorem mem_offering {s : State n E} {w : Fin n} :
    w ∈ offering s ↔ (s.workers w).phase ≠ .working := by
  simp [offering]

theorem offering_move_of_ne {s : State n E} {w : Fin n} {phase : Phase}
    (hphase : (s.workers w).phase ≠ .working) (hnext : phase ≠ .working) :
    offering (s.move w phase) = offering s := by
  ext v
  rw [mem_offering, mem_offering, phase_move]
  split
  next hv => simp [hv, hphase, hnext]
  next => rfl

/-- What holds in every run. -/
structure Invariant (s : State n E) (returns : List (Fin n × Bool)) : Prop where
  canonical : ∀ w, (s.queues w).Canonical shape
  offered : s.offeredTermination = (offering s).card
  idle : ∀ w, (s.workers w).phase ≠ .working → Quiet s w
  done : ∀ v, (s.workers v).phase = .terminated → ∀ w, Quiet s w
  returned : ∀ w, (w, true) ∈ returns → (s.workers w).phase = .terminated

section Invariant

variable {shape} {s s' : State n E} {w : Fin n} {result : Option Bool}
  {returns : List (Fin n × Bool)}

theorem Phase.Waiting.ne_working {phase : Phase} (h : phase.Waiting) : phase ≠ .working := by
  rintro rfl
  exact h

theorem Phase.Waiting.ne_terminated {phase : Phase} (h : phase.Waiting) :
    phase ≠ .terminated := by
  rintro rfl
  exact h

/-- When the offers are as many as the workers, all are inside. -/
theorem Invariant.all_offering (h : Invariant shape s returns)
    (hall : s.offeredTermination = n) (w : Fin n) : (s.workers w).phase ≠ .working := by
  have huniv : offering s = Finset.univ := by
    rw [← Finset.card_eq_iff_eq_univ, Fintype.card_fin]
    exact h.offered.symm.trans hall
  rw [← mem_offering, huniv]
  exact Finset.mem_univ w

/-- A worker goes on to another phase, with the offers counted again. -/
theorem Invariant.move (h : Invariant shape s returns) {phase : Phase} {offers : Nat}
    (hphase : (s.workers w).phase ≠ .terminated)
    (hoffers : offers = (offering (s.move w phase)).card)
    (hidle : phase ≠ .working → Quiet s w) (hdone : phase = .terminated → ∀ v, Quiet s v) :
    Invariant shape { s.move w phase with offeredTermination := offers } returns where
  canonical := h.canonical
  offered := hoffers
  idle v hv := by
    refine (quiet_move s w v phase).mpr ?_
    change ((s.move w phase).workers v).phase ≠ .working at hv
    rw [phase_move] at hv
    split at hv
    next heq => exact heq ▸ hidle hv
    next => exact h.idle v hv
  done v hv u := by
    refine (quiet_move s w u phase).mpr ?_
    change ((s.move w phase).workers v).phase = .terminated at hv
    rw [phase_move] at hv
    split at hv
    next => exact hdone hv u
    next => exact h.done v hv u
  returned v hv := by
    change ((s.move w phase).workers v).phase = .terminated
    have hterm := h.returned v hv
    rw [phase_move, if_neg]
    · exact hterm
    · rintro rfl
      exact hphase hterm

/-- A worker that moves on inside `offer_termination`. -/
theorem Invariant.move_inside (h : Invariant shape s returns) {phase : Phase}
    (hphase : (s.workers w).phase.Waiting) (hnext : phase ≠ .working)
    (hdone : phase = .terminated → ∀ v, Quiet s v) :
    Invariant shape (s.move w phase) returns := by
  refine h.move hphase.ne_terminated ?_ (fun _ => h.idle w hphase.ne_working) hdone
  rw [offering_move_of_ne hphase.ne_working hnext]
  exact h.offered

theorem Invariant.start (h : Start shape s) : Invariant shape s [] where
  canonical := h.canonical
  offered := by
    rw [h.offered, eq_comm, Finset.card_eq_zero, Finset.eq_empty_iff_forall_notMem]
    intro w hw
    exact mem_offering.mp hw (h.working w)
  idle w hw := absurd (h.working w) hw
  done v hv := by
    rw [h.working v] at hv
    cases hv
  returned w hw := by cases hw

/-- Every step keeps the invariant. -/
theorem Invariant.step (h : Invariant shape s returns) (heffect : Effect shape s w s' result) :
    Invariant shape s' (returns ++ result.toList.map (w, ·)) := by
  cases heffect with
  | work hphase hphases hoffered hcanonical hothers hquiet =>
    rw [Option.toList_none, List.map_nil, List.append_nil]
    refine ⟨hcanonical, ?_, ?_, ?_, ?_⟩
    · rw [hoffered, h.offered]
      congr 1
      ext v
      rw [mem_offering, mem_offering, hphases]
    · intro v hv
      rw [hphases] at hv
      exact hothers v (fun heq => hv (heq ▸ hphase)) (h.idle v hv)
    · intro v hv u
      rw [hphases] at hv
      have hall := h.done v hv
      by_cases hu : u = w
      · exact hu ▸ hquiet hall
      · exact hothers u hu (hall u)
    · intro v hv
      rw [hphases]
      exact h.returned v hv
  | offer hphase hquiet =>
    rw [Option.toList_none, List.map_nil, List.append_nil]
    refine h.move (by rw [hphase]; decide) ?_ (fun _ => hquiet) (by simp)
    have hinsert : offering (s.move w .comparing) = insert w (offering s) := by
      ext v
      rw [mem_offering, Finset.mem_insert, mem_offering, phase_move]
      split
      next hv => simp [hv]
      next hv => simp [hv]
    rw [hinsert, Finset.card_insert_of_notMem (fun hw => mem_offering.mp hw hphase), h.offered]
  | agree hphase hall =>
    have hterminate : Invariant shape (s.move w .terminated) returns :=
      h.move_inside (by rw [hphase]; trivial) (by decide)
        fun _ v => h.idle v (h.all_offering hall v)
    refine ⟨hterminate.canonical, hterminate.offered, hterminate.idle, hterminate.done, ?_⟩
    intro v hv
    simp only [Option.toList_some, List.map_cons, List.map_nil, List.mem_append,
      List.mem_singleton, Prod.mk.injEq] at hv
    rcases hv with hv | ⟨rfl, -⟩
    · exact hterminate.returned v hv
    · rw [phase_move, if_pos rfl]
  | wait hphase hnext =>
    rw [Option.toList_none, List.map_nil, List.append_nil]
    exact h.move_inside hphase hnext.ne_working fun heq => absurd heq hnext.ne_terminated
  | found hphase hpeek =>
    rw [Option.toList_none, List.map_nil, List.append_nil]
    exact h.move_inside hphase (by decide) (by simp)
  | leave hphase =>
    have hmove : Invariant shape { s.move w .working with
        offeredTermination := s.offeredTermination - 1 } returns := by
      refine h.move (by rw [hphase]; decide) ?_ (fun hne => absurd rfl hne) (by simp)
      have herase : offering (s.move w .working) = (offering s).erase w := by
        ext v
        rw [mem_offering, Finset.mem_erase, mem_offering, phase_move]
        split
        next hv => simp [hv]
        next hv => simp [hv]
      rw [herase, Finset.card_erase_of_mem (mem_offering.mpr (by rw [hphase]; decide)),
        h.offered]
    exact ⟨hmove.canonical, hmove.offered, hmove.idle, hmove.done,
      fun v hv => hmove.returned v (by simpa using hv)⟩

/-- In every run: once a worker has returned true, there is no work left. -/
theorem Run.invariant {allowed : State n E → Fin n → Action n E → Prop} {start : State n E}
    (hstart : Start shape start) (hrun : Run shape allowed start s returns) :
    Invariant shape s returns := by
  induction hrun with
  | start => exact .start hstart
  | step _ _ hstep ih => exact ih.step (effect_of_step ih.canonical hstep)

end Invariant

/-! ## Agreement

A worker that has peeked work may be overtaken: others finish that work and offer, and one
of them finds all offers made before the first takes its own back. Agreement needs that no
worker is `leaving` when a comparison finds all offers. -/

/-- When a worker finds all offers made, none has peeked work and still to take its offer
back. -/
def NoneLeaving (s : State n E) (_ : Fin n) (action : Action n E) : Prop :=
  action = .compare → s.offeredTermination = n → ∀ v, (s.workers v).phase ≠ .leaving

/-- Once a worker has returned true, the others can only follow. -/
def Settled (s : State n E) : Prop :=
  ∀ v, (s.workers v).phase = .terminated →
    ∀ w, (s.workers w).phase ≠ .working ∧ (s.workers w).phase ≠ .leaving

/-- No worker returns false after one has returned true. -/
def Ordered (returns : List (Fin n × Bool)) : Prop :=
  ∀ before w after, returns = before ++ (w, true) :: after → ∀ v, (v, false) ∉ after

section Agreement

variable {shape} {s s' : State n E} {w : Fin n} {action : Action n E} {result : Option Bool}
  {returns : List (Fin n × Bool)}

theorem Settled.move {phase : Phase} (h : Settled s)
    (hnext : (∃ v, (s.workers v).phase = .terminated) → phase ≠ .working ∧ phase ≠ .leaving)
    (hlast : phase = .terminated →
      ∀ u, (s.workers u).phase ≠ .working ∧ (s.workers u).phase ≠ .leaving) :
    Settled (s.move w phase) := by
  intro v hv u
  rw [phase_move] at hv ⊢
  split at hv
  next =>
    split
    next => simp [hv]
    next => exact hlast hv u
  next =>
    split
    next => exact hnext ⟨v, hv⟩
    next => exact h v hv u

theorem Settled.step (h : Settled s) (hinv : Invariant shape s returns)
    (hcare : result = some true → ∀ v, (s.workers v).phase ≠ .leaving)
    (heffect : Effect shape s w s' result) : Settled s' := by
  cases heffect with
  | work _ hphases =>
    intro v hv u
    rw [hphases] at hv ⊢
    exact h v hv u
  | offer => exact h.move (by simp) (by simp)
  | agree _ hall =>
    exact h.move (by simp) fun _ u => ⟨hinv.all_offering hall u, hcare rfl u⟩
  | wait _ hnext =>
    refine h.move (fun _ => ⟨hnext.ne_working, ?_⟩) fun heq => absurd heq hnext.ne_terminated
    rintro rfl
    exact hnext
  | found _ hpeek =>
    refine h.move ?_ (by simp)
    rintro ⟨v, hv⟩
    -- after a return with true there is nothing to be found
    rw [(hinv.done v hv _).2] at hpeek
    cases hpeek
  | leave hphase =>
    refine h.move ?_ (by simp)
    rintro ⟨v, hv⟩
    exact absurd hphase (h v hv w).2

/-- A list of returns stays ordered when a value is added. -/
theorem Ordered.add (h : Ordered returns) {ret : Bool}
    (hret : ret = false → ∀ v, (v, true) ∉ returns) : Ordered (returns ++ [(w, ret)]) := by
  intro before u after heq v hv
  rw [List.append_eq_append_iff] at heq
  rcases heq with ⟨mid, rfl, heq⟩ | ⟨mid, rfl, heq⟩
  · cases mid with
    | nil =>
      obtain ⟨-, rfl⟩ := List.cons.inj heq
      cases hv
    | cons m mid => simp at heq
  · cases mid with
    | nil =>
      obtain ⟨-, rfl⟩ := List.cons.inj heq.symm
      cases hv
    | cons m mid =>
      rw [List.cons_append] at heq
      obtain ⟨rfl, rfl⟩ := List.cons.inj heq
      rw [List.mem_append, List.mem_singleton] at hv
      rcases hv with hv | hv
      · exact h before u mid rfl v hv
      · obtain ⟨-, rfl⟩ := Prod.mk.inj hv
        exact hret rfl u (by simp)

theorem Ordered.step (h : Ordered returns) (hinv : Invariant shape s returns)
    (hsettled : Settled s) (heffect : Effect shape s w s' result) :
    Ordered (returns ++ result.toList.map (w, ·)) := by
  have hnone : Ordered (returns ++ (none : Option Bool).toList.map (w, ·)) := by simpa using h
  cases heffect with
  | work => exact hnone
  | offer => exact hnone
  | agree => exact h.add (by simp)
  | wait => exact hnone
  | found => exact hnone
  | leave hphase =>
    exact h.add fun _ v hv => absurd hphase (hsettled v (hinv.returned v hv) w).2

/-- Only a comparison that finds all offers returns true. -/
theorem returns_true_only {shape : Shape} (hstep : s.step shape w action = some (s', some true)) :
    action = .compare ∧ s.offeredTermination = n := by
  unfold State.step at hstep
  split at hstep <;> (try split at hstep) <;> (try split at hstep) <;> cases hstep
  next hall => exact ⟨rfl, hall⟩

theorem run_settled {start : State n E} (hstart : Start shape start)
    (hrun : Run shape NoneLeaving start s returns) : Settled s ∧ Ordered returns := by
  induction hrun with
  | start =>
    refine ⟨?_, ?_⟩
    · intro v hv
      rw [hstart.working v] at hv
      cases hv
    · intro before w after heq
      simp at heq
  | step hrun hallowed hstep ih =>
    have hinv := hrun.invariant hstart
    have heffect := effect_of_step hinv.canonical hstep
    refine ⟨ih.1.step hinv ?_ heffect, ih.2.step hinv ih.1 heffect⟩
    rintro rfl
    obtain ⟨haction, hall⟩ := returns_true_only hstep
    exact hallowed haction hall

/-- In every run in which no worker is leaving when a comparison finds all offers made,
termination is an agreement. -/
theorem agreement_of_noneLeaving {start : State n E} (hstart : Start shape start)
    (hrun : Run shape NoneLeaving start s returns) : Agreement shape s returns := by
  intro before w after heq
  have hinv := hrun.invariant hstart
  obtain ⟨hsettled, hordered⟩ := run_settled hstart hrun
  have hterm := hinv.returned w (by simp [heq])
  have hquiet := hinv.done w hterm
  have huniv : offering s = Finset.univ := by
    ext v
    simp only [mem_offering, Finset.mem_univ, iff_true]
    exact (hsettled w hterm v).1
  refine ⟨fun v => (hinv.canonical v).size_eq_zero_iff.mpr (hquiet v).2, fun v => (hquiet v).1,
    ?_, hordered before w after heq⟩
  rw [hinv.offered, huniv, Finset.card_univ, Fintype.card_fin]

end Agreement

/-! ## Two workers -/

/-- Takes the steps of a list in states that pass a test. -/
def runActions (shape : Shape) (test : State n E → Bool) :
    List (Fin n × Action n E) → State n E → List (Fin n × Bool) →
      Option (State n E × List (Fin n × Bool))
  | [], s, returns => some (s, returns)
  | (w, action) :: rest, s, returns =>
    match test s, s.step shape w action with
    | true, some (s', result) =>
      runActions shape test rest s' (returns ++ result.toList.map (w, ·))
    | _, _ => none

theorem run_of_runActions {shape : Shape} {test : State n E → Bool}
    {allowed : State n E → Fin n → Action n E → Prop}
    (htest : ∀ s w action, test s = true → allowed s w action) {start s s' : State n E}
    {actions : List (Fin n × Action n E)} {returns returns' : List (Fin n × Bool)}
    (hrun : Run shape allowed start s returns)
    (hactions : runActions shape test actions s returns = some (s', returns')) :
    Run shape allowed start s' returns' := by
  induction actions generalizing s returns with
  | nil =>
    obtain ⟨rfl, rfl⟩ := Prod.mk.inj (Option.some.inj hactions)
    exact hrun
  | cons a rest ih =>
    obtain ⟨w, action⟩ := a
    rw [runActions] at hactions
    split at hactions
    next next result hpass hstep =>
      exact ih (hrun.step (htest s w action hpass) hstep) hactions
    next => cases hactions

def twoShape : Shape := ⟨17, 32, by decide, TaskQueue.sixteen_le_intBits⟩

/-- Worker 1 has one task in its queue. -/
def twoStart : State 2 Nat where
  queues w := ⟨if w.val = 1 then 1 else 0, ⟨0, 0⟩, fun _ => 7⟩
  workers _ := ⟨.working, []⟩
  offeredTermination := 0

theorem start_two : Start twoShape twoStart where
  offered := rfl
  working _ := rfl
  canonical w := by
    have hbottom : (twoStart.queues w).bottom ≤ 1 := by
      simp only [twoStart]
      split <;> decide
    have htop : (twoStart.queues w).age.top = 0 := rfl
    have hN : twoShape.N = 131072 := rfl
    refine ⟨by omega, by omega, ?_⟩
    rw [TaskQueue.dirtySize_eq (by omega) (by omega), htop, if_pos (Nat.zero_le _)]
    omega

/-- Worker 1 works and waits, worker 0 offers last. -/
theorem agreement_of_noneLeaving_two :
    Start twoShape twoStart ∧ ∃ s, Run twoShape NoneLeaving twoStart s [(0, true), (1, true)] ∧
      Agreement twoShape s [(0, true), (1, true)] := by
  have hactions : (runActions twoShape (fun s => decide (∀ v, (s.workers v).phase ≠ .leaving))
      [(1, .popLocal), (1, .finish 0), (1, .increment), (1, .compare), (0, .increment),
        (0, .compare), (1, .peek), (1, .peek), (1, .peek), (1, .compare)] twoStart []).map
      (fun r => r.2) = some [(0, true), (1, true)] := by
    decide
  rw [Option.map_eq_some_iff] at hactions
  obtain ⟨⟨s, returns⟩, hactions, rfl⟩ := hactions
  have hrun := run_of_runActions (fun s _ _ htest _ _ => of_decide_eq_true htest)
    (Run.start : Run twoShape NoneLeaving twoStart twoStart []) hactions
  exact ⟨start_two, s, hrun, agreement_of_noneLeaving start_two hrun⟩

/-- Worker 0 has seen the task when worker 1 finishes it, offers and returns true; then
worker 0 takes its offer back. -/
theorem overtaken_no_agreement :
    Start twoShape twoStart ∧
      ∃ s returns, Run twoShape (fun _ _ _ => True) twoStart s returns ∧
        ¬ Agreement twoShape s returns := by
  have hactions : (runActions twoShape (fun _ => true)
      [(0, .increment), (0, .compare), (0, .peek), (0, .peek), (1, .popLocal), (1, .finish 0),
        (1, .increment), (1, .compare), (0, .decrement)] twoStart []).map
      (fun r => (r.1.offeredTermination, r.2)) = some (1, [(1, true), (0, false)]) := by
    decide
  rw [Option.map_eq_some_iff] at hactions
  obtain ⟨⟨s, returns⟩, hactions, hfinal⟩ := hactions
  obtain ⟨hoffered, rfl⟩ := Prod.mk.inj hfinal
  refine ⟨start_two, s, _, run_of_runActions (fun _ _ _ _ => trivial) .start hactions, ?_⟩
  intro hagreement
  have htwo := (hagreement [] 1 [(0, false)] rfl).2.2.1
  simp only at hoffered
  omega

end HotSpot.ParallelTaskTerminator
