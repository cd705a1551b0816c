import HotSpot.Lib.Worklist
import HotSpot.Compiler.MethodLiveness
import Mathlib

/-! # The data flow of the liveness analysis

Propagating liveness is processing a work list: the values of the blocks are their
normal and their exceptional exits, to which each block contributes its entry. So
the flow ends in whatever order the blocks are taken, with the least solution of
the equations of the blocks.
-/

namespace HotSpot.MethodLiveness

variable {k n : Nat}

theorem monotone_transfer (ml : MethodLiveness k n) (b : Fin k) : Monotone (ml.transfer b) := by
  intro v w hle
  exact Finset.union_subset_union
    (Finset.union_subset_union (Finset.sdiff_subset_sdiff hle.1 subset_rfl) subset_rfl) hle.2

theorem monotone_contribute (ml : MethodLiveness k n) (b pred : Fin k) :
    Monotone fun exits => ml.contribute b exits pred := by
  intro v w hle
  have htransfer := ml.monotone_transfer b hle
  constructor
  · simp only [contribute]
    split
    · exact htransfer
    · exact le_rfl
  · simp only [contribute]
    split
    · exact htransfer
    · exact le_rfl

/-! ## Merging -/

/-- A block apart from what the data flow changes. -/
structure SameBlock (b b' : BasicBlock k n) : Prop where
  startBci : b'.startBci = b.startBci
  limitBci : b'.limitBci = b.limitBci
  genKill : b'.genKill = b.genKill
  lastBci : b'.lastBci = b.lastBci
  normalPredecessors : b'.normalPredecessors = b.normalPredecessors
  exceptionPredecessors : b'.exceptionPredecessors = b.exceptionPredecessors

section Merge

variable (other : LocalSet n)

theorem mem_workListAdd {ml : MethodLiveness k n} {b p : Fin k} :
    p ∈ (ml.workListAdd b).workList ↔ p = b ∨ p ∈ ml.workList := by
  rw [workListAdd]
  split
  next hb =>
    constructor
    · exact Or.inr
    · rintro (rfl | hp)
      · exact hb
      · exact hp
  next => simp

theorem nodup_workListAdd {ml : MethodLiveness k n} {b : Fin k} (h : ml.workList.Nodup) :
    (ml.workListAdd b).workList.Nodup := by
  rw [workListAdd]
  split
  · exact h
  · next hb => exact List.nodup_cons.mpr ⟨hb, h⟩

@[simp] theorem blocks_workListAdd (ml : MethodLiveness k n) (b : Fin k) :
    (ml.workListAdd b).blocks = ml.blocks := by
  rw [workListAdd]
  split <;> rfl

@[simp] theorem blockMap_workListAdd (ml : MethodLiveness k n) (b : Fin k) :
    (ml.workListAdd b).blockMap = ml.blockMap := by
  rw [workListAdd]
  split <;> rfl

/-- A merge writes one exit and adds its block to the work list if the exit changed. -/
structure Merges (exit : BasicBlock k n → LocalSet n)
    (setExit : BasicBlock k n → LocalSet n → BasicBlock k n)
    (merge : LocalSet n → MethodLiveness k n → Fin k → MethodLiveness k n) : Prop where
  exit_setExit : ∀ b s, exit (setExit b s) = s
  setExit_setExit : ∀ b s s', setExit (setExit b s) s' = setExit b s'
  merge_eq : ∀ other ml b, merge other ml b =
    if exit (ml.blocks b) ∪ other ≠ exit (ml.blocks b) then
      (ml.update b fun block => setExit block (exit (ml.blocks b) ∪ other)).workListAdd b
    else ml.update b fun block => setExit block (exit (ml.blocks b) ∪ other)

theorem merges_normal : Merges (k := k) (n := n) (·.normalExit)
    (fun b s => { b with normalExit := s }) mergeNormal :=
  ⟨fun _ _ => rfl, fun _ _ _ => rfl, fun _ _ _ => rfl⟩

theorem merges_exception : Merges (k := k) (n := n) (·.exceptionExit)
    (fun b s => { b with exceptionExit := s }) mergeException :=
  ⟨fun _ _ => rfl, fun _ _ _ => rfl, fun _ _ _ => rfl⟩

variable {exit : BasicBlock k n → LocalSet n}
  {setExit : BasicBlock k n → LocalSet n → BasicBlock k n}
  {merge : LocalSet n → MethodLiveness k n → Fin k → MethodLiveness k n}

theorem Merges.blocks (h : Merges exit setExit merge) (ml : MethodLiveness k n) (b p : Fin k) :
    (merge other ml b).blocks p =
      if p = b then setExit (ml.blocks p) (exit (ml.blocks p) ∪ other) else ml.blocks p := by
  rw [h.merge_eq]
  have hupdate : (ml.update b fun block => setExit block (exit (ml.blocks b) ∪ other)).blocks p =
      if p = b then setExit (ml.blocks p) (exit (ml.blocks p) ∪ other) else ml.blocks p := by
    by_cases hp : p = b
    · subst hp
      simp [update]
    · simp [update, hp]
  split
  · rw [blocks_workListAdd, hupdate]
  · exact hupdate

theorem Merges.blockMap (h : Merges exit setExit merge) (ml : MethodLiveness k n) (b : Fin k) :
    (merge other ml b).blockMap = ml.blockMap := by
  rw [h.merge_eq]
  split
  · rw [blockMap_workListAdd]
    rfl
  · rfl

theorem Merges.mem_workList (h : Merges exit setExit merge) (ml : MethodLiveness k n)
    (b p : Fin k) : p ∈ (merge other ml b).workList ↔
      p ∈ ml.workList ∨ p = b ∧ exit (ml.blocks p) ∪ other ≠ exit (ml.blocks p) := by
  rw [h.merge_eq]
  split
  next hchanged =>
    rw [mem_workListAdd, or_comm]
    refine or_congr Iff.rfl ⟨?_, And.left⟩
    rintro rfl
    exact ⟨rfl, hchanged⟩
  next hsame =>
    refine ⟨Or.inl, ?_⟩
    rintro (hp | ⟨rfl, hchanged⟩)
    · exact hp
    · exact absurd hchanged hsame

theorem Merges.nodup (h : Merges exit setExit merge) {ml : MethodLiveness k n} (b : Fin k)
    (hnodup : ml.workList.Nodup) : (merge other ml b).workList.Nodup := by
  rw [h.merge_eq]
  split
  · exact nodup_workListAdd hnodup
  · exact hnodup

/-- Merging into all the predecessors of a list. -/
theorem Merges.foldl (h : Merges exit setExit merge) (preds : List (Fin k))
    (ml : MethodLiveness k n) (hnodup : ml.workList.Nodup) :
    (∀ p, (preds.foldl (merge other) ml).blocks p =
        if p ∈ preds then setExit (ml.blocks p) (exit (ml.blocks p) ∪ other)
        else ml.blocks p) ∧
      (preds.foldl (merge other) ml).blockMap = ml.blockMap ∧
      (preds.foldl (merge other) ml).workList.Nodup ∧
      ∀ p, p ∈ (preds.foldl (merge other) ml).workList ↔
        p ∈ ml.workList ∨ p ∈ preds ∧ exit (ml.blocks p) ∪ other ≠ exit (ml.blocks p) := by
  induction preds generalizing ml with
  | nil => exact ⟨fun p => by simp, rfl, hnodup, fun p => by simp⟩
  | cons b preds ih =>
    obtain ⟨hblocks, hmap, hnodup', hmem⟩ := ih (merge other ml b) (h.nodup other b hnodup)
    refine ⟨fun p => ?_, hmap.trans (h.blockMap other ml b), hnodup', fun p => ?_⟩
    · rw [List.foldl_cons, hblocks p, h.blocks]
      by_cases hp : p = b
      · subst hp
        simp only [if_true, h.exit_setExit, h.setExit_setExit, List.mem_cons, true_or]
        split
        · rw [Finset.union_assoc, Finset.union_self]
        · rfl
      · simp only [hp, if_false, List.mem_cons, false_or]
    · rw [List.foldl_cons, hmem p, h.mem_workList, h.blocks]
      by_cases hp : p = b
      · subst hp
        simp only [if_true, h.exit_setExit, Finset.union_assoc, Finset.union_self,
          List.mem_cons, true_or, true_and, not_true_eq_false, and_false, or_false, ne_eq]
      · simp only [hp, if_false, false_and, or_false, List.mem_cons, false_or]

end Merge

/-! ## The flow as a work list -/

/-- The exits of a block. -/
def exits (ml : MethodLiveness k n) (b : Fin k) : LocalSet n × LocalSet n :=
  ((ml.blocks b).normalExit, (ml.blocks b).exceptionExit)

def worklist (ml : MethodLiveness k n) : Worklist (Fin k) (LocalSet n × LocalSet n) where
  value := ml.exits
  pending := ml.workList.toFinset

/-- Propagating liveness from any block on the work list, until there is none. -/
def flow (ml₀ : MethodLiveness k n) : TransitionSystem (MethodLiveness k n) where
  init ml := ml = ml₀
  step ml ml' := ∃ b ∈ ml.workList, ml' = ml.propagateFrom b

theorem newEntry_eq {ml : MethodLiveness k n} {b : Fin k}
    (hentry : (ml.blocks b).entry ⊆ ml.transfer b (ml.exits b)) :
    newEntry (ml.blocks b) = ml.transfer b (ml.exits b) := by
  rw [newEntry]
  simp only [transfer, exits] at hentry ⊢
  ext i
  have hi : i ∈ (ml.blocks b).entry →
      i ∈ (ml.blocks b).normalExit \ (ml.blocks b).genKill.kill ∪ (ml.blocks b).genKill.gen ∪
        (ml.blocks b).exceptionExit := fun h => hentry h
  simp only [Finset.mem_union, Finset.mem_sdiff] at hi ⊢
  tauto

section Propagate

variable (ml : MethodLiveness k n) (b : Fin k)

theorem blocks_setEntry (entry : LocalSet n) (p : Fin k) :
    (ml.update b fun block => { block with entry := entry }).blocks p =
      { ml.blocks p with entry := if p = b then entry else (ml.blocks p).entry } := by
  by_cases hp : p = b
  · subst hp
    simp [update]
  · simp [update, hp]

/-- The merges of a block, over the predecessors it has at first. -/
theorem propagate_eq (hnodup : ml.workList.Nodup) :
    ml.propagate b = (ml.blocks b).exceptionPredecessors.reverse.foldl
      (mergeException (newEntry (ml.blocks b)))
      ((ml.blocks b).normalPredecessors.reverse.foldl (mergeNormal (newEntry (ml.blocks b)))
        (ml.update b fun block => { block with entry := newEntry (ml.blocks b) })) := by
  rw [propagate]
  generalize newEntry (ml.blocks b) = entry
  have hpreds : ((ml.update b fun block => { block with entry := entry }).blocks
      b).normalPredecessors = (ml.blocks b).normalPredecessors := by rw [blocks_setEntry]
  simp only [hpreds]
  obtain ⟨hblocks, -, -, -⟩ := merges_normal.foldl entry
    (ml.blocks b).normalPredecessors.reverse
    (ml.update b fun block => { block with entry := entry }) hnodup
  rw [hblocks, blocks_setEntry]
  split <;> rfl

/-- One block of the flow: its entry is computed and merged into its predecessors. -/
theorem propagate_spec (hnodup : ml.workList.Nodup) :
    (∀ p, (ml.propagate b).blocks p =
      { ml.blocks p with
        entry := if p = b then newEntry (ml.blocks b) else (ml.blocks p).entry
        normalExit := if p ∈ (ml.blocks b).normalPredecessors then
            (ml.blocks p).normalExit ∪ newEntry (ml.blocks b) else (ml.blocks p).normalExit
        exceptionExit := if p ∈ (ml.blocks b).exceptionPredecessors then
            (ml.blocks p).exceptionExit ∪ newEntry (ml.blocks b)
          else (ml.blocks p).exceptionExit }) ∧
      (ml.propagate b).blockMap = ml.blockMap ∧ (ml.propagate b).workList.Nodup ∧
      ∀ p, p ∈ (ml.propagate b).workList ↔ p ∈ ml.workList ∨
        (ml.propagate b).exits p ≠ ml.exits p := by
  rw [propagate_eq ml b hnodup]
  generalize newEntry (ml.blocks b) = entry
  obtain ⟨hblocks₁, hmap₁, hnodup₁, hmem₁⟩ := merges_normal.foldl entry
    (ml.blocks b).normalPredecessors.reverse
    (ml.update b fun block => { block with entry := entry }) hnodup
  obtain ⟨hblocks₂, hmap₂, hnodup₂, hmem₂⟩ := merges_exception.foldl entry
    (ml.blocks b).exceptionPredecessors.reverse _ hnodup₁
  refine ⟨fun p => ?_, hmap₂.trans hmap₁, hnodup₂, fun p => ?_⟩
  · rw [hblocks₂, hblocks₁, blocks_setEntry]
    simp only [List.mem_reverse]
    split <;> split <;> rfl
  · rw [hmem₂, hmem₁, exits, hblocks₂, hblocks₁, blocks_setEntry, exits, or_assoc]
    simp only [List.mem_reverse, ne_eq, Prod.mk.injEq, not_and_or]
    refine or_congr Iff.rfl ?_
    by_cases hnormal : p ∈ (ml.blocks b).normalPredecessors <;>
      by_cases hexception : p ∈ (ml.blocks b).exceptionPredecessors <;>
      simp [hnormal, hexception]

end Propagate

/-- The flow of a block is one step of the work list. -/
theorem worklist_propagateFrom {ml : MethodLiveness k n} {b : Fin k}
    (hnodup : ml.workList.Nodup)
    (hentry : (ml.blocks b).entry ⊆ ml.transfer b (ml.exits b)) :
    (ml.propagateFrom b).worklist = ml.worklist.process ml.contribute b := by
  obtain ⟨hblocks, -, -, hmem⟩ :=
    propagate_spec { ml with workList := ml.workList.erase b } b (hnodup.erase b)
  rw [newEntry_eq hentry] at hblocks
  have hvalue : (ml.propagateFrom b).exits = (ml.worklist.process ml.contribute b).value := by
    funext p
    rw [propagateFrom, exits, hblocks p]
    refine Prod.ext ?_ ?_
    · simp only [Worklist.process, worklist, contribute, exits, Prod.fst_sup]
      split
      · rfl
      · exact (Finset.union_empty _).symm
    · simp only [Worklist.process, worklist, contribute, exits, Prod.snd_sup]
      split
      · rfl
      · exact (Finset.union_empty _).symm
  have hpending : (ml.propagateFrom b).workList.toFinset =
      (ml.worklist.process ml.contribute b).pending := by
    ext p
    rw [List.mem_toFinset, propagateFrom, hmem p, hnodup.mem_erase_iff]
    have hp := congrFun hvalue p
    rw [propagateFrom] at hp
    rw [hp]
    simp [Worklist.process, worklist, exits]
  rw [worklist, hvalue, hpending]

/-! ## Runs -/

/-- What holds along a run from the analysis `ml₀`. -/
structure Flow (ml₀ ml : MethodLiveness k n) : Prop where
  same : ∀ p, SameBlock (ml₀.blocks p) (ml.blocks p)
  blockMap : ml.blockMap = ml₀.blockMap
  nodup : ml.workList.Nodup
  reachable : (Worklist.system ml₀.contribute).Reachable ml.worklist
  entry_le : ∀ b, (ml.blocks b).entry ⊆ ml₀.transfer b (ml.exits b)
  entry_eq : ∀ b ∉ ml.workList, (ml.blocks b).entry = ml₀.transfer b (ml.exits b)

/-- An analysis that has not propagated anything yet. -/
structure Prepared (ml₀ : MethodLiveness k n) : Prop where
  entry : ∀ b, (ml₀.blocks b).entry = ∅
  exits : ∀ b, ml₀.exits b = (∅, ∅)
  workList : ml₀.workList = (List.finRange k).reverse

section Runs

variable {ml₀ ml : MethodLiveness k n}

theorem SameBlock.refl (b : BasicBlock k n) : SameBlock b b := ⟨rfl, rfl, rfl, rfl, rfl, rfl⟩

theorem transfer_of_same (hsame : ∀ p, SameBlock (ml₀.blocks p) (ml.blocks p)) :
    ml.transfer = ml₀.transfer := by
  funext b exits
  rw [transfer, transfer, (hsame b).genKill]

theorem contribute_of_same (hsame : ∀ p, SameBlock (ml₀.blocks p) (ml.blocks p)) :
    ml.contribute = ml₀.contribute := by
  funext b exits p
  rw [contribute, contribute, transfer_of_same hsame, (hsame b).normalPredecessors,
    (hsame b).exceptionPredecessors]

theorem Flow.init (h : Prepared ml₀) : Flow ml₀ ml₀ where
  same p := .refl _
  blockMap := rfl
  nodup := by
    rw [h.workList, List.nodup_reverse]
    exact List.nodup_finRange k
  reachable := by
    refine .of_init (congrArg₂ Worklist.mk (funext h.exits) ?_)
    rw [h.workList]
    ext b
    simp
  entry_le b := by
    rw [h.entry]
    exact Finset.empty_subset _
  entry_eq b hb := by
    rw [h.workList] at hb
    exact absurd (by simp) hb

theorem Flow.step (h : Flow ml₀ ml) {b : Fin k} (hb : b ∈ ml.workList) :
    Flow ml₀ (ml.propagateFrom b) ∧
      (Worklist.system ml₀.contribute).step ml.worklist (ml.propagateFrom b).worklist := by
  have htransfer := transfer_of_same h.same
  have hentry := h.entry_le b
  rw [← htransfer] at hentry
  have hprocess := worklist_propagateFrom h.nodup hentry
  rw [contribute_of_same h.same] at hprocess
  have hstep : (Worklist.system ml₀.contribute).step ml.worklist
      (ml.propagateFrom b).worklist := ⟨b, List.mem_toFinset.mpr hb, hprocess⟩
  obtain ⟨hblocks, hmap, hnodup, hmem⟩ :=
    propagate_spec { ml with workList := ml.workList.erase b } b (h.nodup.erase b)
  rw [newEntry_eq hentry, htransfer] at hblocks
  have hgrows : ∀ p, ml.exits p ≤ (ml.propagateFrom b).exits p := by
    intro p
    have hvalue := congrFun (congrArg Worklist.value hprocess) p
    exact (Worklist.le_process ml.worklist b p).trans hvalue.ge
  refine ⟨⟨fun p => ?_, hmap.trans h.blockMap, hnodup, h.reachable.step hstep, fun p => ?_,
    fun p hp => ?_⟩, hstep⟩
  · obtain ⟨h1, h2, h3, h4, h5, h6⟩ := h.same p
    rw [propagateFrom, hblocks p]
    exact ⟨h1, h2, h3, h4, h5, h6⟩
  · rw [propagateFrom, hblocks p]
    refine Finset.Subset.trans ?_ (ml₀.monotone_transfer p (hgrows p))
    by_cases hp : p = b
    · subst hp
      simp only [if_true]
      exact subset_rfl
    · simp only [hp, if_false]
      exact h.entry_le p
  · have hsame : (ml.propagateFrom b).exits p = ml.exits p := by
      by_contra hne
      exact hp ((hmem p).mpr (Or.inr hne))
    rw [hsame, propagateFrom, hblocks p]
    by_cases hpb : p = b
    · subst hpb
      simp only [if_true]
    · simp only [hpb, if_false]
      refine h.entry_eq p fun hmem' => hp ((hmem p).mpr (Or.inl ?_))
      exact (h.nodup.mem_erase_iff).mpr ⟨hpb, hmem'⟩

theorem Flow.of_reachable (hprepared : Prepared ml₀) (h : ml₀.flow.Reachable ml) :
    Flow ml₀ ml := by
  refine h.invariant (P := Flow ml₀) ?_ ?_
  · rintro _ rfl
    exact .init hprepared
  · rintro ml _ hflow ⟨b, hb, rfl⟩
    exact (hflow.step hb).1

/-- Every run of the flow ends, whichever blocks it takes. -/
theorem acc_flow (hprepared : Prepared ml₀) :
    Acc (fun ml' ml => ml₀.flow.step ml ml') ml₀ := by
  suffices haux : ∀ w : Worklist (Fin k) (LocalSet n × LocalSet n), ∀ ml, ml.worklist = w →
      Flow ml₀ ml → Acc (fun ml' ml => ml₀.flow.step ml ml') ml from
    haux _ ml₀ rfl (.init hprepared)
  intro w
  induction w using (Worklist.wellFounded_step ml₀.contribute).induction with
  | h w ih =>
    rintro ml rfl hflow
    refine Acc.intro _ ?_
    rintro _ ⟨b, hb, rfl⟩
    obtain ⟨hflow', hstep⟩ := hflow.step hb
    exact ih _ hstep _ rfl hflow'

/-- The loop of `propagate_liveness` takes the first block each time. -/
theorem propagateLoop_of_acc (hacc : Acc (fun ml' ml => ml₀.flow.step ml ml') ml) :
    ∃ fuel ml', propagateLoop fuel ml = some ml' ∧ ml'.workList = [] ∧
      Relation.ReflTransGen ml₀.flow.step ml ml' := by
  induction hacc with
  | intro ml _ ih =>
    cases hlist : ml.workList with
    | nil => exact ⟨0, ml, by rw [propagateLoop, if_pos hlist], hlist, .refl⟩
    | cons b rest =>
      have hstep : ml₀.flow.step ml (ml.propagateFrom b) := ⟨b, by simp [hlist], rfl⟩
      obtain ⟨fuel, ml', hloop, hdone, hrun⟩ := ih _ hstep
      refine ⟨fuel + 1, ml', ?_, hdone, .head hstep hrun⟩
      rw [propagateLoop, hlist]
      exact hloop

end Runs

/-! ## The equations of the blocks -/

/-- A block's entry is what it reads, what it leaves of its successors, and what its
handlers need. -/
def Solves (ml : MethodLiveness k n) (entry : Fin k → LocalSet n) : Prop :=
  ∀ b, entry b = ml.transfer b (ml.normalSuccessors entry b, ml.exceptionSuccessors entry b)

section Solution

variable {ml₀ ml : MethodLiveness k n}

/-- The exits that given entries lead to. -/
def exitsOf (ml : MethodLiveness k n) (entry : Fin k → LocalSet n) (b : Fin k) :
    LocalSet n × LocalSet n :=
  (ml.normalSuccessors entry b, ml.exceptionSuccessors entry b)

/-- The contributions of all blocks are the exits their entries lead to. -/
theorem exitsOf_le_iff {value : Fin k → LocalSet n × LocalSet n} :
    ml.exitsOf (fun b => ml.transfer b (value b)) ≤ value ↔
      Worklist.Closed ml.contribute value := by
  constructor
  · intro hle b p
    have hp := hle p
    constructor
    · simp only [contribute]
      split
      next hb =>
        refine Finset.Subset.trans ?_ hp.1
        exact Finset.subset_biUnion_of_mem (fun b => ml.transfer b (value b))
          (Finset.mem_filter.mpr ⟨Finset.mem_univ b, hb⟩)
      next => exact Finset.empty_subset _
    · simp only [contribute]
      split
      next hb =>
        refine Finset.Subset.trans ?_ hp.2
        exact Finset.subset_biUnion_of_mem (fun b => ml.transfer b (value b))
          (Finset.mem_filter.mpr ⟨Finset.mem_univ b, hb⟩)
      next => exact Finset.empty_subset _
  · intro hclosed p
    constructor
    · refine Finset.biUnion_subset.mpr fun b hb => ?_
      have hle := (hclosed b p).1
      simp only [contribute, (Finset.mem_filter.mp hb).2, if_true] at hle
      exact hle
    · refine Finset.biUnion_subset.mpr fun b hb => ?_
      have hle := (hclosed b p).2
      simp only [contribute, (Finset.mem_filter.mp hb).2, if_true] at hle
      exact hle

theorem monotone_exitsOf (ml : MethodLiveness k n) : Monotone ml.exitsOf := by
  intro e e' hle p
  exact ⟨Finset.biUnion_mono fun b _ => hle b, Finset.biUnion_mono fun b _ => hle b⟩

/-- When the work list is empty the entries are the least solution of the equations. -/
theorem Flow.isLeast (h : Flow ml₀ ml) (hdone : ml.workList = []) :
    IsLeast {entry | ml₀.Solves entry} fun b => (ml.blocks b).entry := by
  have hpending : ml.worklist.pending = ∅ := by
    rw [worklist, hdone]
    rfl
  obtain ⟨hclosed, hleast⟩ :=
    Worklist.Reachable.isLeast ml₀.monotone_contribute h.reachable hpending
  have hentry : (fun b => (ml.blocks b).entry) = fun b => ml₀.transfer b (ml.exits b) := by
    funext b
    exact h.entry_eq b (by simp [hdone])
  rw [hentry]
  have hle : ml₀.exitsOf (fun b => ml₀.transfer b (ml.exits b)) ≤ ml.exits :=
    exitsOf_le_iff.mpr hclosed
  -- The exits the entries lead to are closed themselves, so the least ones are no smaller.
  have heq : ml.exits = ml₀.exitsOf fun b => ml₀.transfer b (ml.exits b) := by
    refine le_antisymm (hleast (exitsOf_le_iff.mp ?_)) hle
    exact ml₀.monotone_exitsOf fun b => ml₀.monotone_transfer b (hle b)
  constructor
  · intro b
    exact congrArg (ml₀.transfer b) (congrFun heq b)
  · intro entry hsolves b
    have hexits : ml.exits ≤ ml₀.exitsOf entry := by
      refine hleast (exitsOf_le_iff.mp (ml₀.monotone_exitsOf fun b => ?_))
      exact (hsolves b).ge
    have hmono := ml₀.monotone_transfer b (hexits b)
    rw [hsolves b]
    exact hmono

end Solution

end HotSpot.MethodLiveness
