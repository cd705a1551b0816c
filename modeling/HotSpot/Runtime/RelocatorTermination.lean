import HotSpot.Lib.Cascade
import HotSpot.Runtime.RelocatorRuns
import Mathlib

/-! # Termination of the relocator

A short jump that is widened is none any more. A switch that is padded is aligned, and it can lose
its alignment again only by a change in front of it. So the number of short jumps gets smaller, or
it stays and the switches that are queued form a cascade.
-/

namespace HotSpot

open Bytecode Bytecodes BlockShape

/-- A short jump with an offset of two bytes comes from one. -/
theorem Relocated.isShortJump {o g : Block} (h : Relocated o g)
    (hshort : Bytecodes.isShortJump g.opcode = true) (hthree : g.length = 3) :
    Bytecodes.isShortJump o.opcode = true := by
  cases h with
  | plain => exact hshort
  | shortJump hop _ hjump =>
    rw [hop]
    exact hjump
  | wideJump | widenedGoto | widenedIf => cases hthree
  | switch ho _ hswitch _ hsame => cases (isShortJump_switch hswitch).1.symm.trans hshort

theorem Relocated.not_isShortJump_switch {o g : Block} (h : Relocated o g)
    (hswitch : isSwitch g.opcode = true) : Bytecodes.isShortJump o.opcode = false := by
  obtain ⟨op, p, t, hbytes, -, hop, -⟩ := h.repad hswitch
  cases h with
  | plain _ _ hshort => exact hshort
  | shortJump _ _ hjump => cases (isShortJump_switch hswitch).1.symm.trans hjump
  | wideJump _ _ hjump => cases (isShortJump_switch hswitch).2.symm.trans hjump
  | widenedGoto =>
    rw [Block.opcode, u1At, List.getD_cons_zero] at hswitch
    split at hswitch <;> cases hswitch
  | widenedIf _ _ hif =>
    have hjump := (isShortJump_switch hswitch).1
    simp only [Bytecodes.isShortJump, Bool.or_eq_false_iff] at hjump
    cases hjump.1.symm.trans hif
  | switch ho hpad hop htable hsame =>
    rw [Block.opcode, ho]
    exact (isShortJump_switch hop).1

/-- An instruction that is no switch grows by the eight bytes of a widened branch at most. -/
theorem Relocated.length_le {o g : Block} (h : Relocated o g)
    (hswitch : isSwitch o.opcode = false) :
    g.length ≤ o.length + if Bytecodes.isShortJump o.opcode then 8 else 0 := by
  cases h with
  | plain => exact Nat.le_add_right _ _
  | shortJump _ ho | wideJump _ ho =>
    rw [ho]
    exact Nat.le_add_right _ _
  | widenedGoto ho hjump =>
    rw [Bytecodes.isShortJump, hjump, Bool.or_true, ho]
    exact Nat.le_add_right 5 6
  | widenedIf hop ho hjump =>
    rw [Bytecodes.isShortJump, hop, hjump, Bool.true_or, ho]
    exact Nat.le_refl 11
  | switch ho _ hop =>
    rw [Block.opcode, ho] at hswitch
    cases hswitch.symm.trans hop

theorem layout_length_le {os gs : List Block} (h : List.Forall₂ Relocated os gs)
    (hswitch : ∀ o ∈ os, isSwitch o.opcode = false) : (layout gs).length ≤
      (layout os).length + 8 * os.countP fun o => Bytecodes.isShortJump o.opcode := by
  induction h with
  | nil => exact Nat.zero_le _
  | @cons o g os gs hrel hrest ih =>
    have hhead := hrel.length_le (hswitch o List.mem_cons_self)
    have htail := ih fun o ho => hswitch o (List.mem_cons_of_mem _ ho)
    rw [layout_cons, layout_cons, List.length_append, List.length_append, List.countP_cons]
    simp only [Block.length] at hhead
    split at hhead <;> simp_all <;> omega

namespace Relocator

variable {r r' : Relocator} {os os₁ gs gs₁ : List Block} {ci : ChangeItem}
  {rest : List ChangeItem} {delta : Int}

/-! ## What is queued -/

/-- The queue that changing the jumps leaves is about the blocks of the code. -/
theorem changeJumps_queued {as bs : List Block} {g : Block} (h : LaidOut os (as ++ g :: bs) r)
    (hnot : ¬(isIf g.opcode = true ∧ g.length = 11)) (delta : Int) :
    Queued ((as ++ g :: bs).map Block.shape) (r.changeJumps (layout as).length delta).changes := by
  obtain ⟨slack, hcode⟩ := h.code
  obtain ⟨gs', changes, heq, -, -, hqueued, -⟩ := changeJumps_layout h hnot hcode delta
  rw [heq]
  exact hqueued

/-- The queue after a change: what was behind it, and what the change causes. A switch that is
queued anew is behind the break. -/
theorem changes_of_made (h : LaidOut os gs r) (hchanges : r.changes = ci :: rest)
    (hchange : r.handleCodeChange ci = some (true, r')) :
    ∃ items : List ChangeItem,
      r'.changes.tail = items.map (ChangeItem.relocate ci.bci (r.notified ci).2) ∧
      (∀ item ∈ items, ∃ k < gs.length, startOf gs k = item.bci) ∧
      ∀ item ∈ items, item.isSwitchPad = true → item ∈ rest ∨ ci.bci < item.bci := by
  have hmem : ci ∈ r.changes := hchanges ▸ List.mem_cons_self
  rcases handleCodeChange_relocation hchange with ⟨-, hrelocation⟩ | ⟨-, rfl, hzero⟩
  · rw [notified_fst] at hrelocation
    obtain ⟨r₀, hroom, hnew⟩ := hrelocation.changes
    have h₀ : LaidOut os gs r₀ ∧ r₀.changes = r.changes := by
      rcases hroom with rfl | hexpand
      · exact ⟨h, rfl⟩
      · obtain ⟨h₀, hsame, -⟩ := expandCodeArray_laidOut h hexpand
        exact ⟨h₀, hsame⟩
    obtain ⟨as, g, bs, o, rfl, hbci, habout, -⟩ := h.block_of_mem hmem
    have hnot : ¬(isIf g.opcode = true ∧ g.length = 11) := by
      rintro ⟨hif, heleven⟩
      cases ci with
      | widen =>
        have hjump : isShortJump g.opcode = false := habout.1
        simp only [isShortJump, Bool.or_eq_false_iff] at hjump
        cases hjump.1.symm.trans hif
      | jumpWiden =>
        have hthree : g.length = 3 := habout.2
        omega
      | switchPad =>
        have hjump := (isShortJump_switch habout.1).1
        simp only [isShortJump, Bool.or_eq_false_iff] at hjump
        cases hjump.1.symm.trans hif
    have hqueued := changeJumps_queued h₀.1 hnot (r.notified ci).2
    obtain ⟨new, hforget, hbehind⟩ :=
      (changeJumps_jumpsChanged r₀ ci.bci (r.notified ci).2).queued
    rw [h₀.2, hchanges, List.map_cons, List.cons_append] at hforget
    rw [hbci] at hqueued
    obtain ⟨head, items, hitems, -, hrest⟩ := List.map_eq_cons_iff.mp hforget
    rw [hitems] at hnew hqueued
    refine ⟨items, by rw [hnew]; rfl, fun item hitem =>
      hqueued.exists_start (List.mem_cons_of_mem _ hitem), fun item hitem hpad => ?_⟩
    · have hin : item.forget ∈ items.map ChangeItem.forget := List.mem_map_of_mem hitem
      rw [hrest] at hin
      cases item with
      | widen => cases hpad
      | jumpWiden => cases hpad
      | switchPad itemBci padding lookup =>
        rcases List.mem_append.mp hin with hin | hin
        · obtain ⟨old, hold, hsame⟩ := List.mem_map.mp hin
          rw [ChangeItem.forget_eq_switchPad.mp hsame] at hold
          exact Or.inl hold
        · exact Or.inr (hbehind _ hin rfl)
  · refine ⟨rest, ?_, fun item hitem => ?_, fun item hitem _ => Or.inl hitem⟩
    · rw [hzero, relocate_zero, hchanges, List.tail_cons]
    · exact h.exists_start (hchanges ▸ List.mem_cons_of_mem _ hitem)

/-! ## What remains to be done -/

/-- The padding of the switch at a bci is queued. -/
def padPending (changes : List ChangeItem) (bci : Nat) : Bool :=
  changes.any fun ci => ci.isSwitchPad && ci.bci == bci

theorem padPending_iff {changes : List ChangeItem} {bci : Nat} :
    padPending changes bci = true ↔ ∃ ci ∈ changes, ci.isSwitchPad = true ∧ ci.bci = bci := by
  simp [padPending, List.any_eq_true]

/-- The short jumps of the instructions `os` that are not widened in the blocks `gs`. -/
def unwidened (os gs : List Block) : Finset Nat :=
  (Finset.range gs.length).filter fun k =>
    (os[k]?).any (fun o => isShortJump o.opcode) = true ∧ startOf gs (k + 1) = startOf gs k + 3

/-- The short jumps count for more than all switches. -/
def remaining (os gs : List Block) (changes : List ChangeItem) : Nat :=
  (unwidened os gs).card * 2 ^ gs.length +
    pendingWeight (fun k => padPending changes (startOf gs k)) gs.length

section Step

variable (hlaid : LaidOut os gs r) (hchanges : r.changes = ci :: rest)
  (hchange : r.handleCodeChange ci = some (true, r'))
  (hhandled : Handled os gs r r' ci.bci (r.notified ci).2 gs₁)

include hlaid hhandled

/-- The other blocks keep their lengths. -/
theorem length_of_handled {j k : Nat} (hj : j < gs.length) (hstart : startOf gs j = ci.bci)
    (hk : k < gs.length) (hne : k ≠ j) (hthree : startOf gs₁ (k + 1) = startOf gs₁ k + 3) :
    startOf gs (k + 1) = startOf gs k + 3 := by
  have hlength := hhandled.length_eq hlaid rfl
  have hk' : k + 1 ≤ gs.length := hk
  have hfirst := moved_startOf hhandled.starts hlength hhandled.laidOut.pos (Nat.le_of_lt hk)
  have hsecond := moved_startOf hhandled.starts hlength hhandled.laidOut.pos hk'
  rw [← hhandled.starts] at hfirst hsecond
  rcases Nat.lt_or_gt_of_ne hne with hlt | hgt
  · have hle₁ := startOf_le hlaid.pos (Nat.le_of_lt hlt) (Nat.le_of_lt hj)
    have hle₂ := startOf_le hlaid.pos (show k + 1 ≤ j from hlt) (Nat.le_of_lt hj)
    rw [if_neg (by omega)] at hfirst hsecond
    omega
  · have hlt₁ := startOf_lt hlaid.pos hgt (Nat.le_of_lt hk)
    have hlt₂ := startOf_lt hlaid.pos (Nat.lt_add_one k) hk'
    rw [if_pos (by omega)] at hfirst hsecond
    omega

theorem mem_unwidened_of_handled {j k : Nat} (hj : j < gs.length) (hstart : startOf gs j = ci.bci)
    (hk : k ∈ unwidened os gs₁) (hne : k ≠ j) : k ∈ unwidened os gs := by
  rw [unwidened, Finset.mem_filter, Finset.mem_range, hhandled.length_eq hlaid rfl] at hk
  rw [unwidened, Finset.mem_filter, Finset.mem_range]
  exact ⟨hk.1, hk.2.1, length_of_handled hlaid hhandled hj hstart hk.1 hne hk.2.2⟩

include hchanges

/-- A switch that is padded was none of the short jumps. -/
theorem unwidened_of_switchPad (hpad : ci.isSwitchPad = true) :
    unwidened os gs₁ ⊆ unwidened os gs := by
  obtain ⟨as, g, bs, o, hsplit, hbci, habout, ho, hrel⟩ :=
    hlaid.block_of_mem (hchanges ▸ List.mem_cons_self)
  intro k hk
  by_cases hkj : k = as.length
  · cases ci with
    | widen => cases hpad
    | jumpWiden => cases hpad
    | switchPad bci padding lookup =>
      rw [unwidened, Finset.mem_filter, hkj, ho] at hk
      cases (hrel.not_isShortJump_switch habout.1).symm.trans hk.2.1
  · refine mem_unwidened_of_handled hlaid hhandled ?_ ?_ hk hkj
    · rw [hsplit]
      simp
    · rw [hsplit, startOf, List.take_left, hbci]

omit hhandled in
/-- A jump that is queued is not widened yet. -/
theorem mem_unwidened_of_jumpWiden (hjump : ci.isJumpWiden = true) :
    ∃ j ∈ unwidened os gs, startOf gs j = ci.bci := by
  obtain ⟨as, g, bs, o, hsplit, hbci, habout, ho, hrel⟩ :=
    hlaid.block_of_mem (hchanges ▸ List.mem_cons_self)
  have hstart : startOf gs as.length = ci.bci := by
    rw [hsplit, startOf, List.take_left, hbci]
  cases ci with
  | widen => cases hjump
  | switchPad => cases hjump
  | jumpWiden bci newDelta =>
    refine ⟨as.length, ?_, hstart⟩
    have hnext : startOf gs (as.length + 1) = startOf gs as.length + g.length := by
      rw [hstart, ← hbci, hsplit, startOf, List.take_length_add_append, List.take_succ_cons,
        List.take_zero, layout_append, layout_cons, layout_nil, List.append_nil,
        List.length_append, Block.length]
    have hthree : g.length = 3 := habout.2
    rw [unwidened, Finset.mem_filter, Finset.mem_range, ho, hnext, hthree]
    refine ⟨?_, hrel.isShortJump habout.1 habout.2, rfl⟩
    rw [hsplit]
    simp

/-- A jump that is widened is longer than a short jump. -/
theorem unwidened_of_jumpWiden (hjump : ci.isJumpWiden = true) {j : Nat}
    (hj : j < gs.length) (hstart : startOf gs j = ci.bci) :
    unwidened os gs₁ ⊆ (unwidened os gs).erase j := by
  obtain ⟨i, hi, hsame⟩ := mem_unwidened_of_jumpWiden hlaid hchanges hjump
  rw [unwidened, Finset.mem_filter, Finset.mem_range] at hi
  obtain rfl : i = j := startOf_inj hlaid.pos (Nat.le_of_lt hi.1) (Nat.le_of_lt hj)
    (hsame.trans hstart.symm)
  have hlength := hhandled.length_eq hlaid rfl
  have hlonger : startOf gs₁ (i + 1) ≠ startOf gs₁ i + 3 := by
    intro hthree
    have hfirst := moved_startOf hhandled.starts hlength hhandled.laidOut.pos (Nat.le_of_lt hj)
    have hsecond := moved_startOf hhandled.starts hlength hhandled.laidOut.pos
      (show i + 1 ≤ gs.length from hj)
    rw [← hhandled.starts] at hfirst hsecond
    rw [if_neg (by omega)] at hfirst
    rw [if_pos (by omega)] at hsecond
    have hdelta : (r.notified ci).2 = 8 ∨ (r.notified ci).2 = 2 := by
      cases ci with
      | widen => cases hjump
      | switchPad => cases hjump
      | jumpWiden bci newDelta =>
        rw [notified]
        dsimp only
        split
        · exact Or.inl rfl
        · exact Or.inr rfl
    omega
  intro k hk
  by_cases hkj : k = i
  · rw [unwidened, Finset.mem_filter, hkj] at hk
    exact absurd hk.2.2 hlonger
  · exact Finset.mem_erase.mpr ⟨hkj, mem_unwidened_of_handled hlaid hhandled hj hstart hk hkj⟩

include hchange

/-- A switch whose padding is queued after a change was in the queue behind it, or is caused by
the change and behind its break. -/
theorem padPending_of_handled {k : Nat} (hk : k < gs.length)
    (hpending : padPending r'.changes.tail (startOf gs₁ k) = true) :
    (∃ item ∈ rest, item.isSwitchPad = true ∧ item.bci = startOf gs k) ∨
      ci.bci < startOf gs k := by
  obtain ⟨item, hitem, hpad, hbci⟩ := padPending_iff.mp hpending
  obtain ⟨items, htail, hstart, hcause⟩ := changes_of_made hlaid hchanges hchange
  rw [htail] at hitem
  obtain ⟨old, hold, rfl⟩ := List.mem_map.mp hitem
  have hpad' : old.isSwitchPad = true := by
    cases old <;> exact hpad
  obtain ⟨i, hi, hi'⟩ := hstart old hold
  rw [ChangeItem.relocate_bci, ← hi', ← hhandled.starts] at hbci
  have hlength := hhandled.length_eq hlaid rfl
  obtain rfl : i = k := startOf_inj hhandled.laidOut.pos (by omega) (by omega) hbci
  rw [hi']
  exact (hcause old hold hpad').imp_left fun hrest => ⟨old, hrest, hpad', rfl⟩

theorem pendingWeight_of_switchPad (hpad : ci.isSwitchPad = true) :
    pendingWeight (fun k => padPending r'.changes.tail (startOf gs₁ k)) gs.length <
      pendingWeight (fun k => padPending r.changes (startOf gs k)) gs.length := by
  have hmem : ci ∈ r.changes := hchanges ▸ List.mem_cons_self
  obtain ⟨j, hj, hstart⟩ := hlaid.exists_start hmem
  refine pendingWeight_lt hj (padPending_iff.mpr ⟨_, hmem, hpad, hstart.symm⟩) ?_
    fun k hk hpending => ?_
  · rw [← Bool.not_eq_true]
    intro hpending
    rcases padPending_of_handled hlaid hchanges hchange hhandled hj hpending with
      ⟨item, hitem, -, hsame⟩ | hlt
    · exact (hchanges ▸ hlaid.queued).bci_ne (positive_shape hlaid.relocated) hitem
        (hsame.trans hstart)
    · exact absurd (hstart ▸ hlt) (Nat.lt_irrefl _)
  · rcases padPending_of_handled hlaid hchanges hchange hhandled (Nat.lt_trans hk hj)
      hpending with ⟨item, hitem, hitemPad, hsame⟩ | hlt
    · exact padPending_iff.mpr ⟨item, hchanges ▸ List.mem_cons_of_mem _ hitem, hitemPad, hsame⟩
    · have hlt' := startOf_lt hlaid.pos hk (Nat.le_of_lt hj)
      omega

/-- A change that is made leaves less to be done. -/
theorem remaining_lt (hwiden : ci.isWiden = false) :
    remaining os gs₁ r'.changes.tail < remaining os gs r.changes := by
  have hlength := hhandled.length_eq hlaid rfl
  rw [remaining, remaining, hlength]
  cases hpad : ci.isSwitchPad with
  | true =>
    have hcard := Finset.card_le_card (unwidened_of_switchPad hlaid hchanges hhandled hpad)
    have hweight := pendingWeight_of_switchPad hlaid hchanges hchange hhandled hpad
    have hmul := Nat.mul_le_mul_right (2 ^ gs.length) hcard
    omega
  | false =>
    have hjump : ci.isJumpWiden = true := by
      cases ci with
      | widen => cases hwiden
      | jumpWiden => rfl
      | switchPad => cases hpad
    obtain ⟨j, hj, hstart⟩ := mem_unwidened_of_jumpWiden hlaid hchanges hjump
    have hj' : j < gs.length := Finset.mem_range.mp (Finset.mem_filter.mp hj).1
    have hcard : (unwidened os gs₁).card < (unwidened os gs).card :=
      Nat.lt_of_le_of_lt (Finset.card_le_card
        (unwidened_of_jumpWiden hlaid hchanges hhandled hjump hj' hstart))
        (Finset.card_erase_lt_of_mem hj)
    have hweight := pendingWeight_lt_two_pow
      (fun k => padPending r'.changes.tail (startOf gs₁ k)) gs.length
    have hmul := Nat.mul_le_mul_right (2 ^ gs.length) hcard
    rw [Nat.succ_mul] at hmul
    omega

end Step

/-! ## Runs -/

/-- A change that is queued can be made, or is refused. -/
theorem handleCodeChange_ne_none (hlaid : LaidOut os gs r) (hmem : ci ∈ r.changes) :
    r.handleCodeChange ci ≠ none := by
  cases ci with
  | widen => exact Option.some_ne_none _
  | switchPad => exact Option.some_ne_none _
  | jumpWiden bci newDelta =>
    obtain ⟨as, g, bs, o, rfl, hbci, habout, -⟩ := hlaid.block_of_mem hmem
    obtain ⟨slack, hcode⟩ := hlaid.code
    have hcode₁ : r.codeArray = layout as ++ g.bytes ++ (layout bs ++ slack) := by
      rw [hcode]
      simp
    have hop : r.codeAt bci = g.opcode := by
      rw [show bci = (layout as).length from hbci.symm]
      exact codeAt_block hcode₁ (hlaid.pos g (by simp))
    have hshort : isShortJump g.opcode = true := habout.1
    rw [isShortJump, Bool.or_eq_true] at hshort
    rw [handleCodeChange, handleJumpWiden, hop]
    dsimp only
    split
    next => exact Option.some_ne_none _
    next hif =>
      rw [if_pos (hshort.resolve_left hif)]
      exact Option.some_ne_none _

/-- As many turns as there is to be done, and one for the end, are enough. -/
theorem handleCodeChanges_returns {fuel : Nat} (hlaid : LaidOut os gs r)
    (hwiden : ∀ ci ∈ r.changes, ci.isWiden = false) (hfuel : remaining os gs r.changes < fuel) :
    ∃ result, handleCodeChanges fuel r = some result := by
  induction fuel generalizing r gs with
  | zero => exact absurd hfuel (Nat.not_lt_zero _)
  | succ fuel ih =>
    rw [handleCodeChanges]
    split
    next => exact ⟨_, rfl⟩
    next ci rest hchanges =>
      have hmem : ci ∈ r.changes := hchanges ▸ List.mem_cons_self
      split
      next hnone => exact absurd hnone (handleCodeChange_ne_none hlaid hmem)
      next => exact ⟨_, rfl⟩
      next r' hchange =>
        obtain ⟨gs₁, hhandled⟩ := handleCodeChange_handled hlaid hchanges (hwiden ci hmem) hchange
        have hless := remaining_lt hlaid hchanges hchange (notified_fst r ci ▸ hhandled)
          (hwiden ci hmem)
        exact ih hhandled.laidOut
          (hhandled.isWiden fun ci hci => hwiden ci (List.mem_of_mem_tail hci))
          (Nat.lt_of_lt_of_le hless (Nat.le_of_lt_succ hfuel))

/-- The short jumps that are left in a run are those that were not widened before. -/
theorem Turns.unwidened {relocs : List (Nat × Int)} (h : Turns r relocs r')
    (hlaid : LaidOut os gs r) (hwiden : ∀ ci ∈ r.changes, ci.isWiden = false) :
    ∃ gs', LaidOut os gs' r' ∧ (∀ ci ∈ r'.changes, ci.isWiden = false) ∧
      gs'.length = gs.length ∧ (∀ k, startOf gs' k = movedAll relocs (startOf gs k)) ∧
      Relocator.unwidened os gs' ⊆ Relocator.unwidened os gs := by
  induction h generalizing gs with
  | refl r => exact ⟨gs, hlaid, hwiden, rfl, fun _ => rfl, fun _ hk => hk⟩
  | @turn r r₁ r' ci rest relocs hchanges hchange hturns ih =>
    have hci := hwiden ci (hchanges ▸ List.mem_cons_self)
    obtain ⟨gs₁, hhandled⟩ := handleCodeChange_handled hlaid hchanges hci hchange
    obtain ⟨gs', hlaid', hwiden', hlength, hstarts, hsubset⟩ := ih hhandled.laidOut
      (hhandled.isWiden fun ci hci => hwiden ci (List.mem_of_mem_tail hci))
    refine ⟨gs', hlaid', hwiden', hlength.trans (hhandled.length_eq hlaid rfl), fun k => ?_, ?_⟩
    · rw [hstarts, hhandled.starts, movedAll_append, movedAll_turn hchange]
    · refine fun k hk => ?_
      have hk₁ := hsubset hk
      rw [notified_fst] at hhandled
      cases hpad : ci.isSwitchPad with
      | true => exact unwidened_of_switchPad hlaid hchanges hhandled hpad hk₁
      | false =>
        obtain ⟨j, hj, hstart⟩ := hlaid.exists_start (hchanges ▸ List.mem_cons_self)
        have hjump : ci.isJumpWiden = true := by
          cases ci with
          | widen => cases hci
          | jumpWiden => rfl
          | switchPad => cases hpad
        exact Finset.mem_of_mem_erase
          (unwidened_of_jumpWiden hlaid hchanges hhandled hjump hj hstart hk₁)

/-- A request needs one turn more than what its first change leaves to be done. -/
theorem Insertion.returns {method : ConstMethodOop} {as bs : List Block} {g : Block}
    {buf : ClassFileParser.Bytes} (h : Insertion method as g bs buf) (hnew : new method = some r) :
    ∃ bound, ∀ fuel ≥ bound, ∃ result,
      handleCodeChanges fuel (r.requested (layout as).length buf) = some result := by
  cases hfirst : (r.requested (layout as).length buf).handleCodeChange
      (.widen (layout as).length buf.length buf) with
  | none => exact absurd hfirst (Option.some_ne_none _)
  | some result =>
    obtain ⟨made, r'⟩ := result
    cases made with
    | false =>
      refine ⟨1, fun fuel hfuel => ⟨(false, r'), ?_⟩⟩
      obtain ⟨n, rfl⟩ : ∃ n, fuel = n + 1 := ⟨fuel - 1, by omega⟩
      exact handleCodeChanges_refused rfl hfirst
    | true =>
      obtain ⟨gs₁, hhandled⟩ := h.handled hnew hfirst
      refine ⟨remaining (as ++ ⟨0, buf⟩ :: bs) gs₁ r'.changes.tail + 2, fun fuel hfuel => ?_⟩
      obtain ⟨n, rfl⟩ : ∃ n, fuel = n + 1 := ⟨fuel - 1, by omega⟩
      obtain ⟨result, hresult⟩ := handleCodeChanges_returns hhandled.laidOut
        (Insertion.not_isWiden hhandled)
        (show remaining (as ++ ⟨0, buf⟩ :: bs) gs₁ r'.changes.tail < n by omega)
      exact ⟨result, (handleCodeChanges_made rfl hfirst).trans hresult⟩

/-- Changes that the relocator queues itself ask for eight bytes at most. -/
theorem notified_le (r : Relocator) (hwiden : ci.isWiden = false) : (r.notified ci).2 ≤ 8 := by
  cases ci with
  | widen => cases hwiden
  | jumpWiden bci newDelta =>
    rw [notified]
    dsimp only
    split <;> omega
  | switchPad bci padding lookup =>
    have hpad := switchPad_le bci
    rw [notified]
    dsimp only
    omega

/-- A request succeeds when its code has no switch, and has room with all its jumps widened. -/
theorem Insertion.succeeds {method : ConstMethodOop} {as bs : List Block} {g : Block}
    {buf : ClassFileParser.Bytes} (h : Insertion method as g bs buf) (hnew : new method = some r)
    (hswitch : ∀ o ∈ as ++ bs, isSwitch o.opcode = false)
    (hroom : ((layout (as ++ bs)).length + g.length + buf.length +
      8 * ((as ++ bs).countP fun o => isShortJump o.opcode) + 16) * 125 / 100 ≤ maxMethodLength) :
    ∃ fuel method' r', r.insertSpaceAt fuel (layout as).length buf.length buf =
      some (some method', r') := by
  obtain ⟨bound, hbound⟩ := h.returns hnew
  obtain ⟨⟨made, r'⟩, hresult⟩ := hbound bound (Nat.le_refl _)
  cases made with
  | true => exact ⟨bound, _, _, by rw [insertSpaceAt, ← requested, hresult]⟩
  | false =>
    obtain ⟨hturns, -, hfails⟩ := handleCodeChanges_turns hresult
    obtain ⟨ci, rest, hchanges, hrefused⟩ := hfails rfl
    obtain ⟨hpos, hcapacity, hlong⟩ := (handleCodeChange_refused hrefused).2
    have hgrown : ∃ o gs, LaidOut (as ++ o :: bs) gs r' ∧ isSwitch o.opcode = false ∧
        o.length + (r'.notified ci).2 ≤ g.length + buf.length + 8 := by
      rcases h.blockTurns hnew hturns with ⟨-, rfl⟩ | ⟨gs', -, hlaid, hwiden⟩
      · obtain ⟨rfl, -⟩ := List.cons.inj hchanges
        rw [h.notified hnew]
        exact ⟨g, _, h.laidOut hnew, h.switch, by dsimp only; omega⟩
      · have hle := notified_le r' (hwiden ci (hchanges ▸ List.mem_cons_self))
        exact ⟨_, gs', hlaid, h.insertedSwitch, by dsimp only [Block.length]; omega⟩
    obtain ⟨o, gs', hlaid, ho, hle⟩ := hgrown
    have hlength := layout_length_le hlaid.relocated fun b hb => by
      rcases List.mem_append.mp hb with hb | hb
      · exact hswitch b (List.mem_append_left _ hb)
      · rcases List.mem_cons.mp hb with rfl | hb
        · exact ho
        · exact hswitch b (List.mem_append_right _ hb)
    rw [← hlaid.codeLength] at hlength
    simp only [layout_append, layout_cons, List.length_append, List.countP_append,
      List.countP_cons, Block.length] at hlength hroom hle
    split at hlength <;> omega

/-- A branch that goes over an ldc, as far as an offset of two bytes does. -/
def branchBlocks : List Block := [⟨0, [3]⟩, ⟨0, [153, 127, 255]⟩]

/-- The code behind the ldc, up to the target of the branch. -/
def behindBlocks (n : Nat) : List Block :=
  ⟨0, [87]⟩ :: (List.replicate n ⟨0, [0]⟩ ++ [⟨0, [177]⟩])

/-- A method whose branch has to be widened for an ldc_w. -/
def branchMethod : ConstMethodOop :=
  { switchMethod with
    code := layout (branchBlocks ++ ⟨0, [18, 1]⟩ :: behindBlocks 32761)
    exceptionTable := [0, 6, 6, 0]
    lineNumberTable := none
    localVariableTable := [⟨1, 5, 1, 2, 0, 0⟩] }

theorem behindBlocks_spec (n : Nat) : (layout (behindBlocks n)).length = n + 2 ∧
    ((behindBlocks n).countP fun o => isShortJump o.opcode) = 0 ∧
    ∀ o ∈ behindBlocks n, isSwitch o.opcode = false ∧ lengthAt o.bytes 0 = o.length ∧
      0 < o.length := by
  have hall : ∀ o ∈ behindBlocks n, o = ⟨0, [87]⟩ ∨ o = ⟨0, [0]⟩ ∨ o = ⟨0, [177]⟩ := by
    intro o ho
    simp only [behindBlocks, List.mem_cons, List.mem_append, List.mem_replicate, List.not_mem_nil,
      or_false] at ho
    exact ho.imp_right (Or.imp_left And.right)
  refine ⟨?_, List.countP_eq_zero.mpr fun o ho => ?_, fun o ho => ?_⟩
  · rw [← total_shape, total, behindBlocks, List.map_map, List.map_cons, List.map_append,
      List.map_replicate, List.sum_cons, List.sum_append, List.sum_replicate_nat]
    show 1 + (n * 1 + 1) = n + 2
    omega
  · rcases hall o ho with rfl | rfl | rfl <;> decide
  · rcases hall o ho with rfl | rfl | rfl <;> decide

theorem insertion_branchMethod :
    Insertion branchMethod branchBlocks ⟨0, [18, 1]⟩ (behindBlocks 32761) [19, 1, 0] where
  method := by
    obtain ⟨htotal, -, hbehind⟩ := behindBlocks_spec 32761
    have hall : ∀ o ∈ branchBlocks ++ ⟨0, [18, 1]⟩ :: behindBlocks 32761,
        isSwitch o.opcode = false ∧ lengthAt o.bytes 0 = o.length ∧ 0 < o.length := by
      simp only [branchBlocks, List.cons_append, List.nil_append, List.forall_mem_cons]
      exact ⟨by decide, by decide, by decide, hbehind⟩
    refine ⟨fun o ho => ?_, fun as g bs hsplit hswitch => ?_, rfl, ?_⟩
    · obtain ⟨hswitch, hlength, hpos⟩ := hall o ho
      exact .of_plain hswitch hlength hpos
    · have hnot := (hall g (hsplit ▸ List.mem_append_right _ List.mem_cons_self)).1
      exact absurd (hnot.symm.trans hswitch) Bool.false_ne_true
    · rw [branchMethod, layout_append, layout_cons, List.length_append, List.length_append, htotal]
      decide
  jump := rfl
  switch := rfl
  inserted := .of_plain rfl rfl (by decide)
  insertedSwitch := rfl
  overwrite := by decide

theorem insertSpaceAt_branchMethod : ∃ r fuel method' r', new branchMethod = some r ∧
    r.insertSpaceAt fuel 4 3 [19, 1, 0] = some (some method', r') := by
  obtain ⟨r, hnew, -⟩ := exists_new insertion_branchMethod.method
  obtain ⟨htotal, hcount, hbehind⟩ := behindBlocks_spec 32761
  have hswitch : ∀ o ∈ branchBlocks ++ behindBlocks 32761, isSwitch o.opcode = false := by
    simp only [branchBlocks, List.cons_append, List.nil_append, List.forall_mem_cons]
    exact ⟨rfl, rfl, fun o ho => (hbehind o ho).1⟩
  obtain ⟨fuel, method', r', hrun⟩ := insertion_branchMethod.succeeds hnew hswitch (by
    rw [layout_append, List.length_append, htotal, List.countP_append, hcount]
    decide)
  exact ⟨r, fuel, method', r', hnew, hrun⟩

end Relocator

end HotSpot
