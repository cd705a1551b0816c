import HotSpot.Compiler.MethodBlocksSound

/-! # The block behind a branch

A two way branch and a jsr have a block made behind them without a look at the end
of the code. Whatever the method is, no start of a block is lost again, so that the
block is there when the scan ends, also where the instruction is the last one.
-/

namespace HotSpot

namespace CiMethodBlocks

/-- The array refers to blocks that there are. -/
def Mapped (s : CiMethodBlocks) : Prop := ∀ bci b, s.bciToBlock bci = some b → b < s.numBlocks

/-- Blocks have been made or split: no start is lost. -/
structure Grows (s s' : CiMethodBlocks) : Prop where
  mapped : s'.Mapped
  numBlocks : s.numBlocks ≤ s'.numBlocks
  starts : ∀ bci, s.IsBlockStart bci → s'.IsBlockStart bci

variable {s s' s'' : CiMethodBlocks}

theorem Grows.refl (h : s.Mapped) : Grows s s := ⟨h, le_rfl, fun _ hbci => hbci⟩

theorem Grows.trans (h : Grows s s') (h' : Grows s' s'') : Grows s s'' :=
  ⟨h'.mapped, h.numBlocks.trans h'.numBlocks, fun bci hbci => h'.starts bci (h.starts bci hbci)⟩

theorem Grows.of_sameStarts (h : s.Mapped) (hsame : SameStarts s s')
    (hmap : s'.bciToBlock = s.bciToBlock) : Grows s s' where
  mapped bci b hb := by
    rw [hmap] at hb
    rw [hsame.numBlocks]
    exact h bci b hb
  numBlocks := hsame.numBlocks.ge
  starts bci := (hsame.isBlockStart bci).mpr

theorem Mapped.setLimitBci (h : s.Mapped) (cur limit : Nat) : Grows s (s.setLimitBci cur limit) :=
  .of_sameStarts h (sameStarts_setLimitBci limit) rfl

theorem Mapped.setControlBci (h : s.Mapped) (cur bci : Nat) : Grows s (s.setControlBci cur bci) :=
  .of_sameStarts h (sameStarts_setControlBci bci) rfl

theorem Mapped.update {bci cur : Nat} (h : s.Mapped) (hcur : cur < s.numBlocks) :
    Grows s { s with bciToBlock := Function.update s.bciToBlock bci (some cur) } where
  mapped pos b hb := by
    change Function.update s.bciToBlock bci (some cur) pos = some b at hb
    by_cases hpos : pos = bci
    · subst hpos
      rw [Function.update_self, Option.some_inj] at hb
      exact hb ▸ hcur
    · rw [Function.update_of_ne hpos] at hb
      exact h pos b hb
  numBlocks := le_rfl
  starts _ hbci := hbci

theorem replaceBelow_eq_some {former new pos bci b : Nat} {map : Nat → Option Nat}
    (h : replaceBelow former new pos map bci = some b) : b = new ∨ map bci = some b := by
  induction pos generalizing map with
  | zero => exact Or.inr h
  | succ pos ih =>
    rw [replaceBelow] at h
    cases hcurrent : map pos with
    | none => exact ih (by simpa only [hcurrent] using h)
    | some current =>
      simp only [hcurrent] at h
      by_cases hsame : current = former
      · rw [if_pos hsame] at h
        rcases ih h with hb | hb
        · exact Or.inl hb
        · by_cases hpos : bci = pos
          · subst hpos
            rw [Function.update_self, Option.some_inj] at hb
            exact Or.inl hb.symm
          · rw [Function.update_of_ne hpos] at hb
            exact Or.inr hb
      · rw [if_neg hsame] at h
        exact Or.inr h

/-- A block that is made is there, with all the others. -/
theorem Mapped.makeBlockAt (h : s.Mapped) (t : Nat) :
    Grows s (s.makeBlockAt t) ∧ (s.makeBlockAt t).IsBlockStart t := by
  rw [CiMethodBlocks.makeBlockAt]
  split
  next =>
    change Grows s (s.appendBlock t) ∧ (s.appendBlock t).IsBlockStart t
    have hstarts := @isBlockStart_appendBlock s t
    have hgrown : Grows s { s with numBlocks := s.numBlocks + 1 } := by
      refine ⟨fun bci b hb => Nat.lt_succ_of_lt (h bci b hb), Nat.le_succ _, ?_⟩
      rintro bci ⟨b, hb, hstart⟩
      exact ⟨b, Nat.lt_succ_of_lt hb, hstart⟩
    exact ⟨⟨(hgrown.mapped.update (Nat.lt_succ_self _)).mapped, Nat.le_succ _,
      fun bci hbci => (hstarts bci).mpr (Or.inl hbci)⟩, (hstarts t).mpr (Or.inr rfl)⟩
  next cb hcb =>
    have hlt := h t cb hcb
    split
    next hstart => exact ⟨.refl h, cb, hlt, hstart⟩
    next =>
      have hstarts := isBlockStart_split (t := t) hlt
      refine ⟨⟨fun bci b hb => ?_, Nat.le_succ _, fun bci hbci => (hstarts bci).mpr (Or.inl hbci)⟩,
        (hstarts t).mpr (Or.inr rfl)⟩
      rcases replaceBelow_eq_some hb with rfl | hb
      · exact Nat.lt_succ_self _
      · exact Nat.lt_succ_of_lt (h bci b hb)

theorem Mapped.makeBlocksAt (h : s.Mapped) (bcis : List Nat) : Grows s (s.makeBlocksAt bcis) := by
  induction bcis generalizing s with
  | nil => exact .refl h
  | cons t bcis ih =>
    have hfirst := (h.makeBlockAt t).1
    exact hfirst.trans (ih hfirst.mapped)

theorem Mapped.makeNextBlock (h : s.Mapped) (codeSize nextBci : Nat) :
    Grows s (s.makeNextBlock codeSize nextBci) := by
  rw [CiMethodBlocks.makeNextBlock]
  split
  · exact (h.makeBlockAt nextBci).1
  · exact .refl h

/-- Behind a two way branch and a jsr a block is made in any case. -/
theorem Mapped.makeBlocksFor (h : s.Mapped) (codeSize cur : Nat) (i : Instruction) :
    Grows s (s.makeBlocksFor codeSize cur i) ∧
      (i.code.control.resumes → (s.makeBlocksFor codeSize cur i).IsBlockStart i.nextBci) := by
  have hcontrol := h.setControlBci cur i.bci
  have hbehind : ∀ dest, Grows s (((s.setControlBci cur i.bci).makeBlockAt i.nextBci).makeBlockAt
      dest) ∧ (((s.setControlBci cur i.bci).makeBlockAt i.nextBci).makeBlockAt
      dest).IsBlockStart i.nextBci := by
    intro dest
    obtain ⟨hnext, hstart⟩ := hcontrol.mapped.makeBlockAt i.nextBci
    have hdest := (hnext.mapped.makeBlockAt dest).1
    exact ⟨(hcontrol.trans hnext).trans hdest, hdest.starts _ hstart⟩
  have hskipped := hcontrol.trans (hcontrol.mapped.makeNextBlock codeSize i.nextBci)
  rw [CiMethodBlocks.makeBlocksFor]
  cases hkind : i.code.control with
  | fallThrough => exact ⟨.refl h, by simp [CiControl.resumes]⟩
  | branch dest => exact ⟨(hbehind dest).1, fun _ => (hbehind dest).2⟩
  | goto dest =>
    exact ⟨hskipped.trans (hskipped.mapped.makeBlockAt dest).1, by simp [CiControl.resumes]⟩
  | switch default dests =>
    have hdests := hcontrol.trans (hcontrol.mapped.makeBlocksAt dests)
    have hdefault := hdests.trans (hdests.mapped.makeBlockAt default).1
    exact ⟨hdefault.trans (hdefault.mapped.makeNextBlock codeSize i.nextBci),
      by simp [CiControl.resumes]⟩
  | jsr dest => exact ⟨(hbehind dest).1, fun _ => (hbehind dest).2⟩
  | ret => exact ⟨hskipped, by simp [CiControl.resumes]⟩
  | exit => exact ⟨hskipped, by simp [CiControl.resumes]⟩

/-- One iteration of the scan, in a block that there is. -/
theorem Mapped.analyze (h : s.Mapped) {cur : Nat} (hcur : cur < s.numBlocks) (codeSize : Nat)
    (i : Instruction) :
    Grows s (analyze codeSize (s, cur) i).1 ∧
      (analyze codeSize (s, cur) i).2 < (analyze codeSize (s, cur) i).1.numBlocks ∧
      (i.code.control.resumes → (analyze codeSize (s, cur) i).1.IsBlockStart i.nextBci) := by
  obtain ⟨hentered, hlt⟩ : Grows s (s.enterBlock cur i.bci).1 ∧
      (s.enterBlock cur i.bci).2 < (s.enterBlock cur i.bci).1.numBlocks := by
    rw [CiMethodBlocks.enterBlock]
    split
    next => exact ⟨h.update hcur, hcur⟩
    next new hnew =>
      split
      next => exact ⟨h.update hcur, hcur⟩
      next => exact ⟨h.setLimitBci cur i.bci, h i.bci new hnew⟩
  obtain ⟨hmade, hbehind⟩ :=
    hentered.mapped.makeBlocksFor codeSize (s.enterBlock cur i.bci).2 i
  exact ⟨hentered.trans hmade, hlt.trans_le hmade.numBlocks, hbehind⟩

/-- The scan of the rest of the instructions. -/
theorem Mapped.foldl_analyze (h : s.Mapped) {cur : Nat} (hcur : cur < s.numBlocks)
    (codeSize : Nat) (l : List Instruction) :
    Grows s (l.foldl (CiMethodBlocks.analyze codeSize) (s, cur)).1 ∧
      ∀ i ∈ l, i.code.control.resumes →
        (l.foldl (CiMethodBlocks.analyze codeSize) (s, cur)).1.IsBlockStart i.nextBci := by
  induction l generalizing s cur with
  | nil => exact ⟨.refl h, fun i hi => by cases hi⟩
  | cons i l ih =>
    obtain ⟨hgrows, hlt, hbehind⟩ := h.analyze hcur codeSize i
    obtain ⟨hrest, hothers⟩ := ih hgrows.mapped hlt
    refine ⟨hgrows.trans hrest, fun j hj hresumes => ?_⟩
    rcases List.mem_cons.mp hj with rfl | hj
    · exact hrest.starts _ (hbehind hresumes)
    · exact hothers j hj hresumes

theorem Mapped.foldl_makeHandlerBlocks (h : s.Mapped) (codeSize : Nat)
    (handlers : List CiExceptionHandler) :
    Grows s (handlers.foldl (makeHandlerBlocks codeSize) s) := by
  induction handlers generalizing s with
  | nil => exact .refl h
  | cons handler handlers ih =>
    have hentry := (h.makeBlockAt handler.handlerBci).1
    have hstart := hentry.trans (hentry.mapped.makeBlockAt handler.start).1
    have hlimit := hstart.trans (hstart.mapped.makeNextBlock codeSize handler.limit)
    exact hlimit.trans (ih hlimit.mapped)

/-- In the end a block starts behind every two way branch and every jsr. -/
theorem isBlockStart_new_of_resumes {m : CiMethod} {i : Instruction} (hi : i ∈ m.instructions)
    (hresumes : i.code.control.resumes) : (CiMethodBlocks.new m).IsBlockStart i.nextBci := by
  let initial : CiMethodBlocks :=
    ⟨fun _ => ⟨0, 0, none⟩, 1, Function.update (fun _ => none) 0 (some 0)⟩
  have hnone : CiMethodBlocks.Mapped ⟨fun _ => ⟨0, 0, none⟩, 1, fun _ => none⟩ :=
    fun _ _ hb => by cases hb
  have hinitial : initial.Mapped :=
    (hnone.update (Nat.one_pos : 0 < (1 : Nat))).mapped
  have hhandlers := hinitial.foldl_makeHandlerBlocks m.codeSize m.handlers
  have hzero : ((m.handlers.foldl (makeHandlerBlocks m.codeSize) initial).bciToBlock 0).getD 0 <
      (m.handlers.foldl (makeHandlerBlocks m.codeSize) initial).numBlocks := by
    cases hmap : (m.handlers.foldl (makeHandlerBlocks m.codeSize) initial).bciToBlock 0 with
    | none => exact Nat.lt_of_lt_of_le Nat.one_pos hhandlers.numBlocks
    | some b => exact hhandlers.mapped 0 b hmap
  obtain ⟨hscan, hbehind⟩ := hhandlers.mapped.foldl_analyze hzero m.codeSize m.instructions
  exact (hscan.mapped.setLimitBci _ m.codeSize).starts _ (hbehind i hi hresumes)

/-- The block behind the last instruction of a method that ends in a two way branch or a jsr. -/
theorem exists_block_behind {m : CiMethod} (hresumes : ¬ m.Resumes) :
    ∃ b < (CiMethodBlocks.new m).numBlocks,
      m.codeSize ≤ ((CiMethodBlocks.new m).blocks b).startBci := by
  simp only [CiMethod.Resumes, not_forall, not_lt] at hresumes
  obtain ⟨i, hi, hcontrol, hend⟩ := hresumes
  obtain ⟨b, hb, hstart⟩ := isBlockStart_new_of_resumes hi hcontrol
  exact ⟨b, hb, hstart ▸ hend⟩

end CiMethodBlocks

end HotSpot
