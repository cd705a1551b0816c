import Mathlib.Data.List.FinRange
import Mathlib.Order.Defs.Unbundled
import HotSpot.Compiler.MethodBlocksSound

/-! # The graph of the liveness analysis

Every step of control from the end of a block leads to a block that has it as a
predecessor, and so does every exception that a block can raise.
-/

namespace HotSpot

/-- A fold that only goes up passes over each element of the list. -/
theorem foldl_visits {α β : Type*} (r : α → α → Prop) [Std.Refl r] [IsTrans α r]
    (f : α → β → α) (hf : ∀ a x, r a (f a x)) (l : List β) (a : α) :
    r a (l.foldl f a) ∧ ∀ x ∈ l, ∃ a', r a a' ∧ r (f a' x) (l.foldl f a) := by
  induction l generalizing a with
  | nil => exact ⟨refl_of r a, fun x hx => absurd hx List.not_mem_nil⟩
  | cons y l ih =>
    obtain ⟨hup, hvisits⟩ := ih (f a y)
    refine ⟨trans_of r (hf a y) hup, fun x hx => ?_⟩
    rcases List.mem_cons.mp hx with rfl | hx
    · exact ⟨a, refl_of r a, hup⟩
    · obtain ⟨a', ha', hx'⟩ := hvisits x hx
      exact ⟨a', trans_of r (hf a y) ha', hx'⟩

namespace MethodLiveness

variable {k n : Nat}

/-! ## Predecessors are only added -/

/-- The second analysis has all the predecessors of the first and is the same otherwise. -/
structure Grows (ml ml' : MethodLiveness k n) : Prop where
  blockMap : ml'.blockMap = ml.blockMap
  startBci : ∀ b, (ml'.blocks b).startBci = (ml.blocks b).startBci
  limitBci : ∀ b, (ml'.blocks b).limitBci = (ml.blocks b).limitBci
  entry : ∀ b, (ml'.blocks b).entry = (ml.blocks b).entry
  normalExit : ∀ b, (ml'.blocks b).normalExit = (ml.blocks b).normalExit
  exceptionExit : ∀ b, (ml'.blocks b).exceptionExit = (ml.blocks b).exceptionExit
  lastBci : ∀ b, (ml'.blocks b).lastBci = (ml.blocks b).lastBci
  normal : ∀ b, (ml.blocks b).normalPredecessors ⊆ (ml'.blocks b).normalPredecessors
  exception : ∀ b, (ml.blocks b).exceptionPredecessors ⊆ (ml'.blocks b).exceptionPredecessors

instance : Std.Refl (Grows (k := k) (n := n)) where
  refl _ := ⟨rfl, fun _ => rfl, fun _ => rfl, fun _ => rfl, fun _ => rfl, fun _ => rfl,
    fun _ => rfl,
    fun _ => List.Subset.refl _, fun _ => List.Subset.refl _⟩

theorem Grows.trans {ml ml' ml'' : MethodLiveness k n} (h : Grows ml ml') (h' : Grows ml' ml'') :
    Grows ml ml'' where
  blockMap := h'.blockMap.trans h.blockMap
  startBci b := (h'.startBci b).trans (h.startBci b)
  limitBci b := (h'.limitBci b).trans (h.limitBci b)
  entry b := (h'.entry b).trans (h.entry b)
  normalExit b := (h'.normalExit b).trans (h.normalExit b)
  exceptionExit b := (h'.exceptionExit b).trans (h.exceptionExit b)
  lastBci b := (h'.lastBci b).trans (h.lastBci b)
  normal b := List.Subset.trans (h.normal b) (h'.normal b)
  exception b := List.Subset.trans (h.exception b) (h'.exception b)

instance : IsTrans (MethodLiveness k n) Grows where
  trans _ _ _ h h' := h.trans h'

theorem subset_appendIfMissing (preds : List (Fin k)) (pred : Fin k) :
    preds ⊆ appendIfMissing preds pred := by
  intro p hp
  rw [appendIfMissing]
  split
  · exact hp
  · exact List.mem_append_left _ hp

theorem mem_appendIfMissing (preds : List (Fin k)) (pred : Fin k) :
    pred ∈ appendIfMissing preds pred := by
  rw [appendIfMissing]
  split
  next h => exact h
  next => simp

theorem grows_update {ml : MethodLiveness k n} {b : Fin k} {f : BasicBlock k n → BasicBlock k n}
    (hstart : (f (ml.blocks b)).startBci = (ml.blocks b).startBci)
    (hlimit : (f (ml.blocks b)).limitBci = (ml.blocks b).limitBci)
    (hentry : (f (ml.blocks b)).entry = (ml.blocks b).entry)
    (hnormalExit : (f (ml.blocks b)).normalExit = (ml.blocks b).normalExit)
    (hexceptionExit : (f (ml.blocks b)).exceptionExit = (ml.blocks b).exceptionExit)
    (hlast : (f (ml.blocks b)).lastBci = (ml.blocks b).lastBci)
    (hnormal : (ml.blocks b).normalPredecessors ⊆ (f (ml.blocks b)).normalPredecessors)
    (hexception : (ml.blocks b).exceptionPredecessors ⊆
      (f (ml.blocks b)).exceptionPredecessors) : Grows ml (ml.update b f) := by
  have hblocks : ∀ p, (ml.update b f).blocks p =
      if p = b then f (ml.blocks b) else ml.blocks p := by
    intro p
    by_cases hp : p = b
    · subst hp
      simp [update]
    · simp [update, hp]
  constructor
  case blockMap => rfl
  all_goals
    intro p
    rw [hblocks p]
    by_cases hp : p = b
    · subst hp
      simpa
    · simp [hp]

theorem grows_addNormalPredecessor (ml : MethodLiveness k n) (bci : Nat) (pred : Fin k) :
    Grows ml (ml.addNormalPredecessor bci pred) := by
  rw [addNormalPredecessor]
  split
  · exact refl_of Grows ml
  · exact grows_update rfl rfl rfl rfl rfl rfl (subset_appendIfMissing _ _) (List.Subset.refl _)

theorem grows_addExceptionPredecessor (ml : MethodLiveness k n) (bci : Nat) (pred : Fin k) :
    Grows ml (ml.addExceptionPredecessor bci pred) := by
  rw [addExceptionPredecessor]
  split
  · exact refl_of Grows ml
  · exact grows_update rfl rfl rfl rfl rfl rfl (List.Subset.refl _) (subset_appendIfMissing _ _)

theorem mem_addNormalPredecessor {ml : MethodLiveness k n} {bci : Nat} {dest : Fin k}
    (hdest : ml.blockMap bci = some dest) (pred : Fin k) :
    pred ∈ ((ml.addNormalPredecessor bci pred).blocks dest).normalPredecessors := by
  rw [addNormalPredecessor, hdest]
  simp [update, mem_appendIfMissing]

theorem mem_addExceptionPredecessor {ml : MethodLiveness k n} {bci : Nat} {dest : Fin k}
    (hdest : ml.blockMap bci = some dest) (pred : Fin k) :
    pred ∈ ((ml.addExceptionPredecessor bci pred).blocks dest).exceptionPredecessors := by
  rw [addExceptionPredecessor, hdest]
  simp [update, mem_appendIfMissing]

/-! ## The blocks by their starts -/

section Create

variable {start : Fin k → Nat}

theorem foldl_update_of_ne {t : Nat} (l : List (Fin k)) (map : Nat → Option (Fin k))
    (hne : ∀ x ∈ l, start x ≠ t) :
    l.foldl (fun map x => Function.update map (start x) (some x)) map t = map t := by
  induction l generalizing map with
  | nil => rfl
  | cons x l ih =>
    rw [List.foldl_cons, ih _ fun y hy => hne y (List.mem_cons_of_mem _ hy)]
    exact Function.update_of_ne (hne x (by simp)).symm _ _

theorem foldl_update_of_mem (hinj : Function.Injective start) {b : Fin k} (l : List (Fin k))
    (map : Nat → Option (Fin k)) (hb : b ∈ l) :
    l.foldl (fun map x => Function.update map (start x) (some x)) map (start b) = some b := by
  induction l generalizing map with
  | nil => exact absurd hb List.not_mem_nil
  | cons x l ih =>
    rw [List.foldl_cons]
    by_cases hl : b ∈ l
    · exact ih _ hl
    · obtain rfl := (List.mem_cons.mp hb).resolve_right hl
      have hne : ∀ y ∈ l, start y ≠ start b := fun y hy heq => hl (hinj heq ▸ hy)
      rw [foldl_update_of_ne l _ hne]
      exact Function.update_self _ _ _

theorem blockMap_create {mblocks : CiMethodBlocks}
    (hinj : ∀ i < mblocks.numBlocks, ∀ j < mblocks.numBlocks,
      (mblocks.blocks i).startBci = (mblocks.blocks j).startBci → i = j)
    (t : Nat) (b : Fin mblocks.numBlocks) :
    (create mblocks n).blockMap t = some b ↔ (mblocks.blocks b).startBci = t := by
  have hinj' : Function.Injective
      fun b : Fin mblocks.numBlocks => (mblocks.blocks b).startBci := fun i j heq =>
    Fin.ext (hinj i i.isLt j j.isLt heq)
  have hmem : ∀ b : Fin mblocks.numBlocks,
      (create mblocks n).blockMap (mblocks.blocks b).startBci = some b := fun b =>
    foldl_update_of_mem hinj' (List.finRange _) (fun _ => none) (List.mem_finRange b)
  constructor
  · intro hmap
    by_contra hne
    by_cases hstart : ∃ x : Fin mblocks.numBlocks, (mblocks.blocks x).startBci = t
    · obtain ⟨x, rfl⟩ := hstart
      rw [hmem x] at hmap
      exact hne
        (congrArg (fun b : Fin _ => (mblocks.blocks b).startBci) (Option.some.inj hmap).symm)
    · have hnone := foldl_update_of_ne (List.finRange mblocks.numBlocks) (fun _ => none)
        fun x _ heq => hstart ⟨x, heq⟩
      exact absurd (hmap.symm.trans hnone) (by simp)
  · rintro rfl
    exact hmem b

end Create

/-! ## Edges at the end of a block -/

/-- A graph with more edges. -/
structure Graph.Extends (g g' : Graph k n) : Prop where
  ml : Grows g.ml g'.ml
  jsrExits : g.jsrExits ⊆ g'.jsrExits
  rets : g.rets ⊆ g'.rets

instance : Std.Refl (Graph.Extends (k := k) (n := n)) where
  refl _ := ⟨refl_of Grows _, List.Subset.refl _, List.Subset.refl _⟩

instance : IsTrans (Graph k n) Graph.Extends where
  trans _ _ _ h h' := ⟨h.ml.trans h'.ml, List.Subset.trans h.jsrExits h'.jsrExits,
    List.Subset.trans h.rets h'.rets⟩

theorem grows_foldl_addNormalPredecessor (ml : MethodLiveness k n) (dests : List Nat)
    (pred : Fin k) :
    Grows ml (dests.foldl (fun ml dest => ml.addNormalPredecessor dest pred) ml) :=
  (foldl_visits Grows _ (fun ml dest => grows_addNormalPredecessor ml dest pred) dests ml).1

theorem Graph.Extends.of_ml {g : Graph k n} {ml : MethodLiveness k n} (h : Grows g.ml ml) :
    Graph.Extends g { g with ml := ml } :=
  ⟨h, List.Subset.refl _, List.Subset.refl _⟩

theorem extends_addControlEdges (m : CiMethod) (controlBci : Option Nat) (g : Graph k n)
    (blk : Fin k) : Graph.Extends g (addControlEdges m controlBci g blk) := by
  have hone := fun bci => grows_addNormalPredecessor g.ml bci blk
  cases controlBci with
  | none =>
    simp only [addControlEdges]
    split
    · exact .of_ml (hone _)
    · exact refl_of Graph.Extends g
  | some bci =>
    cases hinstr : m.instructionAt bci with
    | none =>
      simp only [addControlEdges, hinstr]
      exact refl_of Graph.Extends g
    | some i =>
      simp only [addControlEdges, hinstr]
      cases i.code.control with
      | fallThrough => exact refl_of Graph.Extends g
      | branch dest => exact .of_ml ((hone _).trans (grows_addNormalPredecessor _ _ _))
      | goto dest => exact .of_ml (hone _)
      | switch default dests =>
        exact .of_ml ((hone _).trans (grows_foldl_addNormalPredecessor _ _ _))
      | jsr dest => exact ⟨hone _, List.subset_append_left _ _, List.Subset.refl _⟩
      | ret => exact ⟨refl_of Grows _, List.Subset.refl _, List.subset_append_left _ _⟩
      | exit => exact refl_of Graph.Extends g

theorem mem_foldl_addNormalPredecessor {ml : MethodLiveness k n} {dests : List Nat} {pred : Fin k}
    {t : Nat} {dest : Fin k} (hdest : ml.blockMap t = some dest) (ht : t ∈ dests) :
    pred ∈ ((dests.foldl (fun ml dest => ml.addNormalPredecessor dest pred) ml).blocks
      dest).normalPredecessors := by
  obtain ⟨ml', hgrows, hend⟩ := (foldl_visits Grows _
    (fun ml dest => grows_addNormalPredecessor ml dest pred) dests ml).2 t ht
  refine hend.normal dest (mem_addNormalPredecessor ?_ pred)
  rw [hgrows.blockMap, hdest]

section ControlEdges

variable {m : CiMethod} {g : Graph k n} {blk dest : Fin k}

theorem addControlEdges_fallThrough (hlimit : (g.ml.blocks blk).limitBci < m.codeSize)
    (hdest : g.ml.blockMap (g.ml.blocks blk).limitBci = some dest) :
    blk ∈ ((addControlEdges m none g blk).ml.blocks dest).normalPredecessors := by
  simp only [addControlEdges, if_pos hlimit]
  exact mem_addNormalPredecessor hdest blk

variable {i : Instruction} (hi : m.instructionAt i.bci = some i)

include hi

theorem addControlEdges_target {t : Nat} (ht : t ∈ i.code.control.targets)
    (hdest : g.ml.blockMap t = some dest) :
    blk ∈ ((addControlEdges m (some i.bci) g blk).ml.blocks dest).normalPredecessors := by
  simp only [addControlEdges, hi]
  have hafter : ∀ bci, (g.ml.addNormalPredecessor bci blk).blockMap t = some dest := fun bci => by
    rw [(grows_addNormalPredecessor g.ml bci blk).blockMap, hdest]
  cases hcontrol : i.code.control with
  | branch d =>
    obtain rfl : t = d := by simpa [hcontrol, CiControl.targets] using ht
    exact mem_addNormalPredecessor (hafter _) blk
  | goto d =>
    obtain rfl : t = d := by simpa [hcontrol, CiControl.targets] using ht
    exact mem_addNormalPredecessor hdest blk
  | switch default dests =>
    rw [hcontrol] at ht
    rcases List.mem_cons.mp ht with rfl | ht
    · exact (grows_foldl_addNormalPredecessor _ _ _).normal dest
        (mem_addNormalPredecessor hdest blk)
    · exact mem_foldl_addNormalPredecessor (hafter _) (List.mem_reverse.mpr ht)
  | jsr d =>
    obtain rfl : t = d := by simpa [hcontrol, CiControl.targets] using ht
    exact mem_addNormalPredecessor hdest blk
  | fallThrough => simp [hcontrol, CiControl.targets] at ht
  | ret => simp [hcontrol, CiControl.targets] at ht
  | exit => simp [hcontrol, CiControl.targets] at ht

theorem addControlEdges_notTaken {d : Nat} (hcontrol : i.code.control = .branch d)
    (hdest : g.ml.blockMap i.nextBci = some dest) :
    blk ∈ ((addControlEdges m (some i.bci) g blk).ml.blocks dest).normalPredecessors := by
  simp only [addControlEdges, hi, hcontrol]
  exact (grows_addNormalPredecessor _ _ _).normal dest (mem_addNormalPredecessor hdest blk)

theorem addControlEdges_jsr {d : Nat} (hcontrol : i.code.control = .jsr d) :
    (g.ml.blocks blk).limitBci ∈ (addControlEdges m (some i.bci) g blk).jsrExits := by
  simp [addControlEdges, hi, hcontrol]

theorem addControlEdges_ret (hcontrol : i.code.control = .ret) :
    blk ∈ (addControlEdges m (some i.bci) g blk).rets := by
  simp [addControlEdges, hi, hcontrol]

end ControlEdges

theorem grows_addRetEdges (g : Graph k n) : Grows g.ml (addRetEdges g) := by
  refine (foldl_visits Grows _ (fun ml jsrExit => ?_) _ _).1
  exact (foldl_visits Grows _ (fun ml ret => grows_addNormalPredecessor ml jsrExit ret) _ _).1

theorem mem_addRetEdges {g : Graph k n} {jsrExit : Nat} {ret dest : Fin k}
    (hjsr : jsrExit ∈ g.jsrExits) (hret : ret ∈ g.rets)
    (hdest : g.ml.blockMap jsrExit = some dest) :
    ret ∈ ((addRetEdges g).blocks dest).normalPredecessors := by
  obtain ⟨ml, hml, hend⟩ := (foldl_visits Grows
    (fun ml jsrExit => g.rets.reverse.foldl (fun ml ret => ml.addNormalPredecessor jsrExit ret) ml)
    (fun ml jsrExit => (foldl_visits Grows _
      (fun ml ret => grows_addNormalPredecessor ml jsrExit ret) _ _).1) _ g.ml).2 jsrExit
    (List.mem_reverse.mpr hjsr)
  obtain ⟨ml', hml', hend'⟩ := (foldl_visits Grows _
    (fun ml ret => grows_addNormalPredecessor ml jsrExit ret) _ ml).2 ret
    (List.mem_reverse.mpr hret)
  refine hend.normal dest (hend'.normal dest (mem_addNormalPredecessor ?_ ret))
  rw [hml'.blockMap, hml.blockMap, hdest]

/-! ## Edges to handlers -/

theorem grows_addExceptionEdges (ml : MethodLiveness k n) (blk : Fin k)
    (handlers : List CiExceptionHandler) : Grows ml (ml.addExceptionEdges blk handlers) := by
  induction handlers generalizing ml with
  | nil => exact refl_of Grows ml
  | cons handler handlers ih =>
    have hadd := grows_addExceptionPredecessor ml handler.handlerBci blk
    simp only [addExceptionEdges]
    split
    · split
      · exact hadd
      · exact hadd.trans (ih _)
    · exact ih ml

/-- A block gets to all its handlers up to one that catches everything in all of it. -/
theorem mem_addExceptionEdges {blk dest : Fin k} {handler : CiExceptionHandler}
    (before after : List CiExceptionHandler) (ml : MethodLiveness k n)
    (hmeets : max (ml.blocks blk).startBci handler.start <
      min (ml.blocks blk).limitBci handler.limit)
    (hbefore : ∀ h ∈ before, h.isCatchAll → ¬ (h.start ≤ (ml.blocks blk).startBci ∧
      (ml.blocks blk).limitBci ≤ h.limit))
    (hdest : ml.blockMap handler.handlerBci = some dest) :
    blk ∈ ((ml.addExceptionEdges blk (before ++ handler :: after)).blocks
      dest).exceptionPredecessors := by
  induction before generalizing ml with
  | nil =>
    have hadd := mem_addExceptionPredecessor hdest blk
    simp only [List.nil_append, addExceptionEdges, if_pos hmeets]
    split
    · exact hadd
    · exact (grows_addExceptionEdges _ _ _).exception dest hadd
  | cons h before ih =>
    have hadd := grows_addExceptionPredecessor ml h.handlerBci blk
    simp only [List.cons_append, addExceptionEdges]
    split
    next =>
      rw [if_neg]
      · refine ih _ ?_ ?_ ?_
        · rwa [hadd.startBci, hadd.limitBci]
        · intro h' hh'
          rw [hadd.startBci, hadd.limitBci]
          exact hbefore h' (List.mem_cons_of_mem _ hh')
        · rw [hadd.blockMap, hdest]
      · rintro ⟨hcatch, hstart, hlimit⟩
        exact hbefore h (by simp) hcatch ⟨by omega, by omega⟩
    next =>
      exact ih ml hmeets (fun h' hh' => hbefore h' (List.mem_cons_of_mem _ hh')) hdest

/-! ## The whole graph -/

section Graph

variable {m : CiMethod} {mblocks : CiMethodBlocks}

/-- The control flow edges of all the blocks. -/
def controlGraph (m : CiMethod) (mblocks : CiMethodBlocks) :
    Graph mblocks.numBlocks m.maxLocals :=
  (List.finRange mblocks.numBlocks).foldl
    (fun g (blk : Fin mblocks.numBlocks) =>
      addControlEdges m (mblocks.blocks blk).controlBci g blk)
    ⟨create mblocks m.maxLocals, [], []⟩

theorem extends_controlGraph :
    Graph.Extends ⟨create mblocks m.maxLocals, [], []⟩ (controlGraph m mblocks) :=
  (foldl_visits Graph.Extends _ (fun g blk => extends_addControlEdges m _ g blk) _ _).1

/-- The edges of a block are added to a graph that has the blocks as they were created. -/
theorem controlGraph_visits (blk : Fin mblocks.numBlocks) :
    ∃ g, Grows (create mblocks m.maxLocals) g.ml ∧
      Graph.Extends (addControlEdges m (mblocks.blocks blk).controlBci g blk)
        (controlGraph m mblocks) := by
  obtain ⟨g, hg, hend⟩ := (foldl_visits Graph.Extends
    (fun g (blk : Fin mblocks.numBlocks) =>
      addControlEdges m (mblocks.blocks blk).controlBci g blk)
    (fun g blk => extends_addControlEdges m _ g blk) (List.finRange mblocks.numBlocks)
    ⟨create mblocks m.maxLocals, [], []⟩).2 blk (List.mem_finRange blk)
  exact ⟨g, hg.ml, hend⟩

theorem grows_connect_addRetEdges :
    Grows (addRetEdges (controlGraph m mblocks)) (connect m mblocks) :=
  (foldl_visits Grows _ (fun ml blk => grows_addExceptionEdges ml blk m.handlers) _ _).1

theorem grows_connect_controlGraph :
    Grows (controlGraph m mblocks).ml (connect m mblocks) :=
  (grows_addRetEdges _).trans grows_connect_addRetEdges

theorem grows_connect :
    Grows (create mblocks m.maxLocals) (connect m mblocks) :=
  extends_controlGraph.ml.trans grows_connect_controlGraph

variable {blk dest : Fin mblocks.numBlocks}

/-- An edge that the end of a block makes is an edge of the graph. -/
theorem connect_of_addControlEdges
    (h : ∀ g : Graph mblocks.numBlocks m.maxLocals, Grows (create mblocks m.maxLocals) g.ml →
      blk ∈ ((addControlEdges m (mblocks.blocks blk).controlBci g blk).ml.blocks
        dest).normalPredecessors) :
    blk ∈ ((connect m mblocks).blocks dest).normalPredecessors := by
  obtain ⟨g, hg, hend⟩ := controlGraph_visits (m := m) blk
  exact grows_connect_controlGraph.normal dest (hend.ml.normal dest (h g hg))

variable (hpartition : CiMethodBlocks.Partition m mblocks)

include hpartition

theorem blockMap_connect (t : Nat) (b : Fin mblocks.numBlocks) :
    (connect m mblocks).blockMap t = some b ↔ (mblocks.blocks b).startBci = t := by
  rw [grows_connect.blockMap]
  exact blockMap_create hpartition.inj t b

theorem blockMap_of_grows {ml : MethodLiveness mblocks.numBlocks m.maxLocals}
    (h : Grows (create mblocks m.maxLocals) ml) :
    ml.blockMap (mblocks.blocks dest).startBci = some dest := by
  rw [h.blockMap]
  exact (blockMap_create hpartition.inj _ dest).mpr rfl

theorem connect_fallThrough (hcontrol : (mblocks.blocks blk).controlBci = none)
    (hlimit : (mblocks.blocks blk).limitBci < m.codeSize)
    (hdest : (mblocks.blocks dest).startBci = (mblocks.blocks blk).limitBci) :
    blk ∈ ((connect m mblocks).blocks dest).normalPredecessors := by
  refine connect_of_addControlEdges fun g hg => ?_
  have heq : (g.ml.blocks blk).limitBci = (mblocks.blocks blk).limitBci := hg.limitBci blk
  rw [hcontrol]
  refine addControlEdges_fallThrough (heq ▸ hlimit) ?_
  rw [heq, ← hdest]
  exact blockMap_of_grows hpartition hg

variable {i : Instruction} (hi : m.instructionAt i.bci = some i)
  (hcontrol : (mblocks.blocks blk).controlBci = some i.bci)

include hi hcontrol

theorem connect_target (ht : (mblocks.blocks dest).startBci ∈ i.code.control.targets) :
    blk ∈ ((connect m mblocks).blocks dest).normalPredecessors := by
  refine connect_of_addControlEdges fun g hg => ?_
  rw [hcontrol]
  exact addControlEdges_target hi ht (blockMap_of_grows hpartition hg)

theorem connect_notTaken {d : Nat} (hbranch : i.code.control = .branch d)
    (hdest : (mblocks.blocks dest).startBci = i.nextBci) :
    blk ∈ ((connect m mblocks).blocks dest).normalPredecessors := by
  refine connect_of_addControlEdges fun g hg => ?_
  rw [hcontrol]
  exact addControlEdges_notTaken hi hbranch (hdest ▸ blockMap_of_grows hpartition hg)

theorem connect_ret (hret : i.code.control = .ret) {j : Instruction}
    (hj : m.instructionAt j.bci = some j) {blk' : Fin mblocks.numBlocks}
    (hcontrol' : (mblocks.blocks blk').controlBci = some j.bci) {d : Nat}
    (hjsr : j.code.control = .jsr d)
    (hdest : (mblocks.blocks dest).startBci = (mblocks.blocks blk').limitBci) :
    blk ∈ ((connect m mblocks).blocks dest).normalPredecessors := by
  obtain ⟨g, hg, hend⟩ := controlGraph_visits (m := m) blk
  obtain ⟨g', hg', hend'⟩ := controlGraph_visits (m := m) blk'
  rw [hcontrol] at hend
  rw [hcontrol'] at hend'
  have hlimit : (g'.ml.blocks blk').limitBci = (mblocks.blocks blk').limitBci := hg'.limitBci blk'
  refine grows_connect_addRetEdges.normal dest (mem_addRetEdges
    (hend'.jsrExits (addControlEdges_jsr hj hjsr)) (hend.rets (addControlEdges_ret hi hret)) ?_)
  rw [hlimit, ← hdest]
  exact blockMap_of_grows hpartition extends_controlGraph.ml

omit hi hcontrol

theorem connect_exception {before after : List CiExceptionHandler}
    {handler : CiExceptionHandler} (hhandlers : m.handlers = before ++ handler :: after)
    (hmeets : max (mblocks.blocks blk).startBci handler.start <
      min (mblocks.blocks blk).limitBci handler.limit)
    (hbefore : ∀ h ∈ before, h.isCatchAll → ¬ (h.start ≤ (mblocks.blocks blk).startBci ∧
      (mblocks.blocks blk).limitBci ≤ h.limit))
    (hdest : (mblocks.blocks dest).startBci = handler.handlerBci) :
    blk ∈ ((connect m mblocks).blocks dest).exceptionPredecessors := by
  obtain ⟨ml, hml, hend⟩ := (foldl_visits Grows
    (fun ml blk => ml.addExceptionEdges blk m.handlers)
    (fun ml blk => grows_addExceptionEdges ml blk m.handlers)
    (List.finRange mblocks.numBlocks).reverse (addRetEdges (controlGraph m mblocks))).2 blk
    (List.mem_reverse.mpr (List.mem_finRange blk))
  have hgrows := (extends_controlGraph.ml.trans (grows_addRetEdges _)).trans hml
  have hstart : (ml.blocks blk).startBci = (mblocks.blocks blk).startBci := hgrows.startBci blk
  have hlimit : (ml.blocks blk).limitBci = (mblocks.blocks blk).limitBci := hgrows.limitBci blk
  refine hend.exception dest ?_
  rw [hhandlers]
  refine mem_addExceptionEdges before after ml ?_ ?_ ?_
  · rwa [hstart, hlimit]
  · rwa [hstart, hlimit]
  · rw [← hdest]
    exact blockMap_of_grows hpartition hgrows

end Graph

end MethodLiveness

end HotSpot
