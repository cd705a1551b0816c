import HotSpot.Runtime.CodeChanges

/-! # Runs of the relocator

Each change that is made relocates the code once, or not at all: a bci, and by how much the code
behind it moves. A run of `handle_code_changes` makes changes until the queue is empty or a change
is refused, and its relocations, one after the other, are what moves a bci.
-/

namespace HotSpot

open Bytecode Bytecodes

/-! ## Methods in instructions -/

/-- An instruction as a class file has it: a switch has the words that it says, and the others
have the length of their bytecode. -/
structure Block.Instruction (o : Block) : Prop where
  pos : 0 < o.length
  plain : isSwitch o.opcode = false → lengthAt o.bytes 0 = o.length
  switch : isSwitch o.opcode = true → ∃ op p t, o.bytes = op :: (p ++ t) ∧ p.length = o.pad ∧
    TableLength op.toNat t

theorem Block.Instruction.of_plain {o : Block} (hswitch : isSwitch o.opcode = false)
    (hlength : lengthAt o.bytes 0 = o.length) (hpos : 0 < o.length) : o.Instruction :=
  ⟨hpos, fun _ => hlength, fun h => absurd (hswitch.symm.trans h) Bool.false_ne_true⟩

/-- Relocation may leave an instruction as it is. -/
theorem Block.Instruction.relocated {o : Block} (h : o.Instruction) : Relocated o o := by
  obtain ⟨pad, bytes⟩ := o
  cases bytes with
  | nil => exact absurd h.pos (Nat.lt_irrefl 0)
  | cons op rest =>
    cases hswitch : isSwitch op.toNat with
    | true =>
      obtain ⟨op', p, t, hbytes, rfl, htable⟩ := h.switch hswitch
      obtain ⟨rfl, rfl⟩ := List.cons.inj hbytes
      exact .switch rfl rfl hswitch htable (SameTable.refl _ _)
    | false =>
      have hlength : lengthAt (op :: rest) 0 = ((op :: rest).length : Int) := h.plain hswitch
      cases hshort : isShortJump op.toNat with
      | true =>
        have hthree := lengthFor_shortJump op.toNat (UInt8.toNat_lt op) hshort
        rw [lengthAt_fixed (b := op :: rest) hthree (by omega)] at hlength
        match rest, hlength with
        | [x, y], _ => exact .shortJump rfl rfl hshort
      | false =>
        cases hwide : isWideJump op.toNat with
        | true =>
          have hfive := lengthFor_wideJump op.toNat (UInt8.toNat_lt op) hwide
          rw [lengthAt_fixed (b := op :: rest) hfive (by omega)] at hlength
          match rest, hlength with
          | [x, y, z, w], _ => exact .wideJump rfl rfl hwide
        | false => exact .plain h.pos hlength hshort hwide hswitch

/-- Relocation leaves an instruction alone that neither jumps nor is aligned. -/
theorem Relocated.eq_of_plain {o g : Block} (h : Relocated o g)
    (hshort : isShortJump o.opcode = false)
    (hwide : isWideJump o.opcode = false) (hswitch : isSwitch o.opcode = false) : g = o := by
  cases h with
  | plain => rfl
  | shortJump hop _ hjump =>
    rw [hop] at hshort
    cases hshort.symm.trans hjump
  | wideJump hop _ hjump =>
    rw [hop] at hwide
    cases hwide.symm.trans hjump
  | widenedGoto _ hjump =>
    rw [isShortJump, hjump, Bool.or_true] at hshort
    cases hshort
  | widenedIf hop _ hjump =>
    rw [isShortJump, hop, hjump, Bool.true_or] at hshort
    cases hshort
  | switch ho _ hop =>
    have hopcode : isSwitch o.opcode = true := by
      rw [Block.opcode, ho]
      exact hop
    cases hswitch.symm.trans hopcode

/-- A method in instructions, with its switches aligned. -/
structure InInstructions (os : List Block) (method : ConstMethodOop) : Prop where
  instruction : ∀ o ∈ os, o.Instruction
  aligned : Aligned os
  code : method.code = layout os
  length : method.code.length ≤ maxMethodLength

theorem aligned_of_get {gs : List Block} (h : ∀ k : Fin gs.length,
    isSwitch (gs.get k).opcode = true → (gs.get k).pad = switchPad (startOf gs k)) :
    Aligned gs := by
  rintro as g bs rfl hswitch
  have hget := h ⟨as.length, by simp⟩
  simp only [List.get_eq_getElem, List.getElem_append_right (Nat.le_refl _), Nat.sub_self,
    List.getElem_cons_zero, startOf, List.take_left] at hget
  exact hget hswitch

theorem startOf_lt {gs : List Block} (hpos : ∀ g ∈ gs, 0 < g.length) {i j : Nat} (hij : i < j)
    (hj : j ≤ gs.length) : startOf gs i < startOf gs j := by
  obtain ⟨n, rfl⟩ : ∃ n, j = i + (n + 1) := ⟨j - i - 1, by omega⟩
  have hget : gs.drop i = gs[i] :: gs.drop (i + 1) := List.drop_eq_getElem_cons (by omega)
  have hlen := hpos _ (List.getElem_mem (show i < gs.length by omega))
  rw [startOf, startOf, List.take_add, hget, List.take_succ_cons, layout_append, layout_cons,
    List.length_append, List.length_append]
  rw [Block.length] at hlen
  omega

theorem startOf_inj {gs : List Block} (hpos : ∀ g ∈ gs, 0 < g.length) {i j : Nat}
    (hi : i ≤ gs.length) (hj : j ≤ gs.length) (h : startOf gs i = startOf gs j) : i = j := by
  rcases Nat.lt_trichotomy i j with hlt | heq | hgt
  · exact absurd (startOf_lt hpos hlt hj) (by omega)
  · exact heq
  · exact absurd (startOf_lt hpos hgt hi) (by omega)

theorem startOf_le {gs : List Block} (hpos : ∀ g ∈ gs, 0 < g.length) {i j : Nat} (hij : i ≤ j)
    (hj : j ≤ gs.length) : startOf gs i ≤ startOf gs j := by
  rcases Nat.lt_or_eq_of_le hij with hlt | rfl
  · exact Nat.le_of_lt (startOf_lt hpos hlt hj)
  · exact Nat.le_refl _

/-- No block is moved in front of the code. -/
theorem moved_startOf {gs gs' : List Block} {bci k : Nat} {delta : Int}
    (hstarts : ∀ k, startOf gs' k = ChangeItem.moved bci delta (startOf gs k))
    (hlength : gs'.length = gs.length) (hpos' : ∀ g ∈ gs', 0 < g.length) (hk : k ≤ gs.length) :
    ((ChangeItem.moved bci delta (startOf gs k) : Nat) : Int) =
      if startOf gs k > bci then startOf gs k + delta else startOf gs k := by
  have hnew := hstarts k
  rw [ChangeItem.moved] at hnew ⊢
  split
  next hgt =>
    rw [if_pos hgt] at hnew
    have hk₀ : 0 < k := Nat.pos_of_ne_zero fun hzero => by
      rw [hzero, startOf, List.take_zero, layout_nil, List.length_nil] at hgt
      omega
    have hlt := startOf_lt hpos' hk₀ (hlength ▸ hk)
    omega
  next => rfl

theorem Queued.exists_start {gs : List Block} {changes : List ChangeItem}
    (h : Queued (gs.map Block.shape) changes) {ci : ChangeItem} (hci : ci ∈ changes) :
    ∃ k < gs.length, startOf gs k = ci.bci := by
  obtain ⟨σ, ⟨σas, σbs, hsplit, htotal⟩, -⟩ := h.about ci hci
  obtain ⟨as, gbs, rfl, rfl, hgbs⟩ := List.map_eq_append_iff.mp hsplit
  obtain ⟨g, bs, rfl, -, -⟩ := List.map_eq_cons_iff.mp hgbs
  refine ⟨as.length, by simp, ?_⟩
  rw [startOf, List.take_left, ← htotal, total_shape]

namespace LaidOut

variable {r : Relocator} {os gs : List Block}

theorem layout_le (h : LaidOut os gs r) : (layout gs).length ≤ r.codeArrayLength := by
  obtain ⟨slack, hcode⟩ := h.code
  rw [← h.capacity, hcode, List.length_append]
  exact Nat.le_add_right _ _

theorem pos (h : LaidOut os gs r) : ∀ g ∈ gs, 0 < g.length :=
  fun g hg => Relocator.positive_shape h.relocated g.shape (List.mem_map_of_mem hg)

/-- A change is about a block. -/
theorem exists_start (h : LaidOut os gs r) {ci : ChangeItem} (hci : ci ∈ r.changes) :
    ∃ k < gs.length, startOf gs k = ci.bci := h.queued.exists_start hci

/-- The block that a change is about, and the instruction that it comes from. -/
theorem block_of_mem (h : LaidOut os gs r) {ci : ChangeItem} (hci : ci ∈ r.changes) :
    ∃ as g bs o, gs = as ++ g :: bs ∧ (layout as).length = ci.bci ∧ ci.About g.shape ∧
      os[as.length]? = some o ∧ Relocated o g := by
  obtain ⟨σ, ⟨σas, σbs, hsplit, htotal⟩, habout⟩ := h.queued.about ci hci
  obtain ⟨as, gbs, rfl, rfl, hgbs⟩ := List.map_eq_append_iff.mp hsplit
  obtain ⟨g, bs, rfl, rfl, -⟩ := List.map_eq_cons_iff.mp hgbs
  obtain ⟨os₁, o, os₂, rfl, hfront, hrel, -⟩ := Relocator.forall₂_split h.relocated
  refine ⟨as, g, bs, o, rfl, by rw [← htotal, total_shape], habout, ?_, hrel⟩
  rw [← hfront.length_eq, List.getElem?_append_right (Nat.le_refl _), Nat.sub_self,
    List.getElem?_cons_zero]

end LaidOut

namespace ChangeItem

def isSwitchPad : ChangeItem → Bool
  | switchPad _ _ _ => true
  | _ => false

def isJumpWiden : ChangeItem → Bool
  | jumpWiden _ _ => true
  | _ => false

end ChangeItem

namespace Relocator

variable {r r' r'' : Relocator} {breakBci : Nat} {delta : Int}

/-! ## Changed jumps -/

/-- Jumps that change are written to the code, and queue changes. A switch is queued only if the
break is in front of it. -/
structure JumpsChanged (breakBci : Nat) (r r' : Relocator) : Prop where
  same : ∃ codeArray changes, r' = { r with codeArray, changes }
  queued : ∃ new, r'.changes.map ChangeItem.forget = r.changes.map ChangeItem.forget ++ new ∧
    ∀ ci ∈ new, ci.isSwitchPad = true → breakBci < ci.bci

namespace JumpsChanged

theorem refl (breakBci : Nat) (r : Relocator) : JumpsChanged breakBci r r :=
  ⟨⟨_, _, rfl⟩, [], (List.append_nil _).symm, fun _ hci => absurd hci List.not_mem_nil⟩

theorem trans (h : JumpsChanged breakBci r r') (h' : JumpsChanged breakBci r' r'') :
    JumpsChanged breakBci r r'' := by
  obtain ⟨a, cs, rfl⟩ := h.same
  obtain ⟨a', cs', rfl⟩ := h'.same
  obtain ⟨new, heq, hnew⟩ := h.queued
  obtain ⟨new', heq', hnew'⟩ := h'.queued
  refine ⟨⟨a', cs', rfl⟩, new ++ new', ?_, fun ci hci => ?_⟩
  · rw [heq', heq, List.append_assoc]
  · exact (List.mem_append.mp hci).elim (hnew ci) (hnew' ci)

end JumpsChanged

theorem changeJump_jumpsChanged (r : Relocator) (bci offset : Nat) (isShort : Bool)
    (breakBci : Nat) (delta : Int) :
    JumpsChanged breakBci r (r.changeJump bci offset isShort breakBci delta) := by
  rw [changeJump]
  generalize (if isShort = true then r.shortAt offset else r.intAt offset) = bciDelta
  dsimp only
  generalize (if bciDelta > 0 then bciDelta + delta else bciDelta - delta) = newDelta
  split
  next =>
    split
    next =>
      refine ⟨⟨_, _, rfl⟩, ?_⟩
      rcases r.pushJumpWiden_changes bci delta newDelta with heq | ⟨heq, -⟩
      · exact ⟨[], by rw [heq, List.append_nil], fun _ hci => absurd hci List.not_mem_nil⟩
      · refine ⟨[.jumpWiden bci 0], by rw [heq, List.map_append]; rfl, fun ci hci hpad => ?_⟩
        rw [List.mem_singleton.mp hci] at hpad
        cases hpad
    next =>
      split
      all_goals
        exact ⟨⟨_, _, rfl⟩, [], (List.append_nil _).symm, fun _ hci => absurd hci List.not_mem_nil⟩
  next => exact JumpsChanged.refl _ _

theorem changeSwitch_jumpsChanged (r : Relocator) (bci breakBci : Nat) (delta : Int) :
    JumpsChanged breakBci r (r.changeSwitch bci breakBci delta) := by
  have hfold : ∀ (offsets : List Nat) (r₁ : Relocator), JumpsChanged breakBci r₁
      (offsets.foldl (fun r offset => r.changeJump bci offset false breakBci delta) r₁) := by
    intro offsets
    induction offsets with
    | nil => exact JumpsChanged.refl _
    | cons offset offsets ih =>
      exact fun r₁ => (changeJump_jumpsChanged r₁ bci offset false breakBci delta).trans (ih _)
  rw [changeSwitch]
  refine JumpsChanged.trans ?_ ((changeJump_jumpsChanged _ bci _ false breakBci delta).trans
    (hfold _ _))
  split
  next hpush =>
    refine ⟨⟨_, _, rfl⟩, [_], List.map_append, fun ci hci _ => ?_⟩
    rw [List.mem_singleton.mp hci]
    exact hpush.1
  next => exact JumpsChanged.refl _ _

theorem changeInstr_jumpsChanged (r : Relocator) (bci breakBci : Nat) (delta : Int) :
    JumpsChanged breakBci r (r.changeInstr bci breakBci delta) := by
  rw [changeInstr]
  split
  next => exact changeJump_jumpsChanged r bci _ true breakBci delta
  next =>
    split
    next => exact changeJump_jumpsChanged r bci _ false breakBci delta
    next =>
      split
      next => exact changeSwitch_jumpsChanged r bci breakBci delta
      next => exact JumpsChanged.refl _ _

theorem changeJumps_jumpsChanged (r : Relocator) (breakBci : Nat) (delta : Int) :
    JumpsChanged breakBci r (r.changeJumps breakBci delta) := by
  have hwalk : ∀ fuel bci (r₁ : Relocator),
      JumpsChanged breakBci r₁ (changeJumpsFrom breakBci delta fuel bci r₁) := by
    intro fuel
    induction fuel with
    | zero => exact fun _ r₁ => JumpsChanged.refl _ r₁
    | succ fuel ih =>
      intro bci r₁
      rw [changeJumpsFrom]
      split
      next => exact (changeInstr_jumpsChanged r₁ bci breakBci delta).trans (ih _ _)
      next => exact JumpsChanged.refl _ _
  exact hwalk _ _ _

/-! ## One relocation -/

/-- The tables that are adjusted in place. -/
def adjustTables (bci : Nat) (delta : Int) (method : ConstMethodOop) : ConstMethodOop :=
  { method with
    exceptionTable := adjustExceptionTable bci delta method.exceptionTable
    localVariableTable := method.localVariableTable.map (adjustLocalVar bci delta) }

/-- The line number table that is stored aside. -/
def adjustedLines (bci : Nat) (delta : Int) (table : List (Int × Int)) : List (Int × Int) :=
  table.map fun (b, line) => (b + (if b > bci then delta else 0), line)

theorem adjustLineNoTable_lines (r : Relocator) (bci : Nat) (delta : Int) :
    (r.adjustLineNoTable bci delta).compressedLineNumberTable =
      (r.method.lineNumberTable.map (adjustedLines bci delta)).or r.compressedLineNumberTable := by
  rw [adjustLineNoTable]
  split
  next hlines => rw [hlines, Option.map_none, Option.none_or]
  next table hlines => rw [hlines, Option.map_some, Option.some_or, adjustedLines]

/-- What relocating the code does apart from the code itself. -/
structure Relocation (bci : Nat) (delta : Int) (r r' : Relocator) : Prop where
  method : r'.method = adjustTables bci delta r.method
  lines : r'.compressedLineNumberTable =
    (r.method.lineNumberTable.map (adjustedLines bci delta)).or r.compressedLineNumberTable
  codeLength : r'.codeLength = (r.codeLength + delta).toNat
  changes : ∃ r₀, (r₀ = r ∨ r.expandCodeArray delta = (true, r₀)) ∧
    r'.changes = (r₀.changeJumps bci delta).changes.map (ChangeItem.relocate bci delta)

/-- More room changes nothing else. -/
theorem expandCodeArray_eq (h : r.expandCodeArray delta = (true, r')) : r'.method = r.method ∧
    r'.compressedLineNumberTable = r.compressedLineNumberTable ∧ r'.codeLength = r.codeLength := by
  rw [expandCodeArray] at h
  split at h
  next =>
    split at h
    next =>
      obtain rfl := (Prod.mk.inj h).2
      exact ⟨rfl, rfl, rfl⟩
    next => cases (Prod.mk.inj h).1
  next =>
    obtain rfl := (Prod.mk.inj h).2
    exact ⟨rfl, rfl, rfl⟩

theorem moveCode_relocation (r : Relocator) (bci ilen : Nat) (delta : Int) :
    Relocation bci delta r (r.moveCode bci ilen delta) := by
  obtain ⟨a, cs, heq⟩ := (changeJumps_jumpsChanged r bci delta).same
  constructor
  case method =>
    rw [moveCode, heq, adjustLineNoTable]
    split <;> split <;> rfl
  case lines =>
    rw [moveCode, heq]
    refine (adjustLineNoTable_lines _ bci delta).trans ?_
    split <;> rfl
  case codeLength => rw [moveCode_codeLength, heq]
  case changes => exact ⟨r, Or.inl rfl, moveCode_changes r bci ilen delta⟩

/-- A change is refused for its length, and for the room that is left behind the code. -/
def Refuses (r : Relocator) (delta : Int) : Prop :=
  0 < delta ∧ r.codeArrayLength < r.codeLength + delta ∧
    maxMethodLength < max (r.codeLength + delta).toNat (r.codeLength * 125 / 100)

theorem relocateCode_refused {bci ilen : Nat} (h : r.relocateCode bci ilen delta = (false, r')) :
    r' = r ∧ r.Refuses delta := by
  rw [relocateCode] at h
  split at h
  next hroom =>
    split at h
    next => cases (Prod.mk.inj h).1
    next r₁ hexpand =>
      obtain rfl := (Prod.mk.inj h).2
      rw [expandCodeArray] at hexpand
      split at hexpand
      next hlong =>
        rw [if_neg (by omega)] at hexpand
        exact ⟨(Prod.mk.inj hexpand).2.symm, hroom.1, hroom.2, hlong⟩
      next => cases (Prod.mk.inj hexpand).1
  next => cases (Prod.mk.inj h).1

theorem relocateCode_of_refuses {delta : Int} (h : r.Refuses delta) (bci ilen : Nat) :
    r.relocateCode bci ilen delta = (false, r) := by
  obtain ⟨hpos, hroom, hlong⟩ := h
  have hexpand : r.expandCodeArray delta = (false, r) := by
    rw [expandCodeArray]
    rw [if_pos hlong, if_neg fun hzero => by omega]
  rw [relocateCode, if_pos ⟨hpos, hroom⟩, hexpand]

theorem relocateCode_relocation {bci ilen : Nat} (h : r.relocateCode bci ilen delta = (true, r')) :
    Relocation bci delta r r' := by
  rw [relocateCode] at h
  split at h
  next =>
    split at h
    next r₀ hexpand =>
      obtain rfl := (Prod.mk.inj h).2
      obtain ⟨hmethod, hlines, hlength⟩ := expandCodeArray_eq hexpand
      have hmove := moveCode_relocation r₀ bci ilen delta
      refine ⟨?_, ?_, ?_, r₀, Or.inr hexpand, moveCode_changes r₀ bci ilen delta⟩
      · rw [hmove.method, hmethod]
      · rw [hmove.lines, hmethod, hlines]
      · rw [hmove.codeLength, hlength]
    next => cases (Prod.mk.inj h).1
  next =>
    obtain rfl := (Prod.mk.inj h).2
    exact moveCode_relocation r bci ilen delta

/-! ## One change -/

/-- A switch that is aligned already is not relocated. -/
def relocates : ChangeItem → Bool
  | .switchPad bci padding _ => switchPad bci ≠ padding
  | _ => true

theorem Relocation.writeCode {bci : Nat} (h : Relocation bci delta r r')
    (codeArray : ClassFileParser.Bytes) : Relocation bci delta r { r' with codeArray } :=
  ⟨h.method, h.lines, h.codeLength, h.changes⟩

/-- What a change can do: nothing, where a switch is aligned; fail, where there is no short jump; or
relocate the code and write into it, unless the relocation is refused. -/
theorem handleCodeChange_cases (r : Relocator) (ci : ChangeItem) :
    (relocates ci = false ∧ (r.notified ci).2 = 0 ∧ r.handleCodeChange ci = some (true, r)) ∨
    (ci.isJumpWiden = true ∧ isShortJump (r.codeAt ci.bci) = false ∧
      r.handleCodeChange ci = none) ∨
    (relocates ci = true ∧ ∃ (ilen : Nat) (code : Relocator → ClassFileParser.Bytes),
      r.handleCodeChange ci = some
        (match r.relocateCode (r.notified ci).1 ilen (r.notified ci).2 with
        | (false, r) => (false, r)
        | (true, r) => (true, { r with codeArray := code r }))) := by
  cases ci with
  | widen bci newIlen instBuffer => exact .inr (.inr ⟨rfl, _, fun r => _, rfl⟩)
  | jumpWiden bci newDelta =>
    rw [handleCodeChange, handleJumpWiden, notified]
    dsimp only
    split
    next hif => exact .inr (.inr ⟨rfl, 3, fun r => _, rfl⟩)
    next hif =>
      split
      next hgoto => exact .inr (.inr ⟨rfl, 3, fun r => _, rfl⟩)
      next hgoto =>
        refine .inr (.inl ⟨rfl, ?_, rfl⟩)
        rw [isShortJump]
        simp only [ChangeItem.bci, hif, hgoto, Bool.or_false]
  | switchPad bci padding lookup =>
    rw [handleCodeChange, handleSwitchPad, notified]
    dsimp only
    split
    next hzero => exact .inl ⟨decide_eq_false (by omega), hzero, rfl⟩
    next hmoves =>
      refine .inr (.inr ⟨decide_eq_true (by omega), (r.rcInstrLen bci).toNat, ?_⟩)
      by_cases hneg : (switchPad bci : Int) - padding < 0
      · simp only [if_pos hneg]
        exact ⟨fun r => _, rfl⟩
      · simp only [if_neg hneg]
        exact ⟨fun r => _, rfl⟩

/-- A change that is made relocates the code, or leaves everything as it is. -/
theorem handleCodeChange_relocation {ci : ChangeItem}
    (h : r.handleCodeChange ci = some (true, r')) :
    (relocates ci = true ∧ Relocation (r.notified ci).1 (r.notified ci).2 r r') ∨
      (relocates ci = false ∧ r' = r ∧ (r.notified ci).2 = 0) := by
  rcases handleCodeChange_cases r ci with
    ⟨hstays, hzero, hsame⟩ | ⟨-, -, hnone⟩ | ⟨hrelocates, ilen, code, heq⟩
  · rw [hsame] at h
    exact Or.inr ⟨hstays, (Prod.mk.inj (Option.some.inj h)).2.symm, hzero⟩
  · cases hnone.symm.trans h
  · rw [heq] at h
    replace h := Option.some.inj h
    split at h
    next => cases (Prod.mk.inj h).1
    next r₁ hrelocate =>
      obtain rfl := (Prod.mk.inj h).2
      exact Or.inl ⟨hrelocates, (relocateCode_relocation hrelocate).writeCode _⟩

/-- A change that is refused leaves everything as it is. -/
theorem handleCodeChange_refused {ci : ChangeItem}
    (h : r.handleCodeChange ci = some (false, r')) :
    r' = r ∧ r.Refuses (r.notified ci).2 := by
  rcases handleCodeChange_cases r ci with ⟨-, -, hsame⟩ | ⟨-, -, hnone⟩ | ⟨-, ilen, code, heq⟩
  · cases hsame.symm.trans h
  · cases hnone.symm.trans h
  · rw [heq] at h
    replace h := Option.some.inj h
    split at h
    next r₁ hrelocate =>
      obtain rfl := (Prod.mk.inj h).2
      exact relocateCode_refused hrelocate
    next => cases (Prod.mk.inj h).1

theorem handleCodeChange_of_refuses {ci : ChangeItem} (h : r.Refuses (r.notified ci).2)
    (hjump : ci.isJumpWiden = true → isShortJump (r.codeAt ci.bci) = true) :
    r.handleCodeChange ci = some (false, r) := by
  rcases handleCodeChange_cases r ci with
    ⟨-, hzero, -⟩ | ⟨hwidens, hnot, -⟩ | ⟨-, ilen, code, heq⟩
  · exact absurd h.1 (hzero ▸ Int.lt_irrefl 0)
  · cases hnot.symm.trans (hjump hwidens)
  · rw [heq, relocateCode_of_refuses h]

/-! ## Runs -/

/-- The relocations of a run of `handle_code_changes`. -/
def relocations : Nat → Relocator → List (Nat × Int)
  | 0, _ => []
  | fuel + 1, r =>
    match r.changes with
    | [] => []
    | ci :: _ =>
      match r.handleCodeChange ci with
      | some (true, r') =>
        (if relocates ci then [r.notified ci] else []) ++
          relocations fuel { r' with changes := r'.changes.tail }
      | _ => []

/-- Where relocations move a bci, one after the other. -/
def movedAll (relocs : List (Nat × Int)) (bci : Nat) : Nat :=
  relocs.foldl (fun bci reloc => ChangeItem.moved reloc.1 reloc.2 bci) bci

@[simp] theorem movedAll_nil (bci : Nat) : movedAll [] bci = bci := rfl

@[simp] theorem movedAll_cons (reloc : Nat × Int) (relocs : List (Nat × Int)) (bci : Nat) :
    movedAll (reloc :: relocs) bci =
      movedAll relocs (ChangeItem.moved reloc.1 reloc.2 bci) := rfl

@[simp] theorem movedAll_append (relocs relocs' : List (Nat × Int)) (bci : Nat) :
    movedAll (relocs ++ relocs') bci = movedAll relocs' (movedAll relocs bci) :=
  List.foldl_append

/-- Turns of the loop in which changes are made, and their relocations. -/
inductive Turns : Relocator → List (Nat × Int) → Relocator → Prop where
  | refl (r : Relocator) : Turns r [] r
  | turn {r r₁ r' : Relocator} {ci : ChangeItem} {rest : List ChangeItem}
      {relocs : List (Nat × Int)} (hchanges : r.changes = ci :: rest)
      (hchange : r.handleCodeChange ci = some (true, r₁))
      (hturns : Turns { r₁ with changes := r₁.changes.tail } relocs r') :
      Turns r ((if relocates ci then [r.notified ci] else []) ++ relocs) r'

theorem handleCodeChanges_made {fuel : Nat} {ci : ChangeItem} {rest : List ChangeItem}
    (hchanges : r.changes = ci :: rest) (hchange : r.handleCodeChange ci = some (true, r')) :
    handleCodeChanges (fuel + 1) r =
      handleCodeChanges fuel { r' with changes := r'.changes.tail } := by
  rw [handleCodeChanges, hchanges]
  dsimp only
  rw [hchange]

theorem handleCodeChanges_refused {fuel : Nat} {ci : ChangeItem} {rest : List ChangeItem}
    (hchanges : r.changes = ci :: rest) (hchange : r.handleCodeChange ci = some (false, r')) :
    handleCodeChanges (fuel + 1) r = some (false, r') := by
  rw [handleCodeChanges, hchanges]
  dsimp only
  rw [hchange]

/-- The loop ends with an empty queue, or in front of a change that is refused. -/
theorem handleCodeChanges_turns {fuel : Nat} {made : Bool}
    (h : handleCodeChanges fuel r = some (made, r')) : Turns r (relocations fuel r) r' ∧
      (made = true → r'.changes = []) ∧
      (made = false → ∃ ci rest, r'.changes = ci :: rest ∧
        r'.handleCodeChange ci = some (false, r')) := by
  induction fuel generalizing r with
  | zero => cases h
  | succ fuel ih =>
    rw [handleCodeChanges] at h
    split at h
    next hempty =>
      obtain ⟨rfl, rfl⟩ := Prod.mk.inj (Option.some.inj h)
      rw [relocations, hempty]
      exact ⟨.refl r, fun _ => rfl, fun hmade => by cases hmade⟩
    next ci rest hchanges =>
      rw [relocations, hchanges]
      dsimp only
      split at h
      next => cases h
      next r₁ hchange =>
        obtain ⟨rfl, rfl⟩ := Prod.mk.inj (Option.some.inj h)
        obtain ⟨rfl, -⟩ := handleCodeChange_refused hchange
        rw [hchange]
        exact ⟨.refl _, fun hmade => (by cases hmade), fun _ => ⟨ci, rest, hchanges, hchange⟩⟩
      next r₁ hchange =>
        obtain ⟨hturns, hmade, hrefused⟩ := ih h
        rw [hchange]
        exact ⟨.turn hchanges hchange hturns, hmade, hrefused⟩

@[simp] theorem notified_fst (r : Relocator) (ci : ChangeItem) : (r.notified ci).1 = ci.bci := by
  cases ci <;> rfl

/-! ## Runs over blocks -/

/-- Turns with the blocks of the code, from the first turn to the last. -/
inductive BlockTurns :
    List Block → Relocator → List (Nat × Int) → List Block → Relocator → Prop where
  | refl (gs : List Block) (r : Relocator) : BlockTurns gs r [] gs r
  | turn {os os₁ gs gs₁ gs' : List Block} {r r₁ r' : Relocator} {ci : ChangeItem}
      {rest : List ChangeItem} {relocs : List (Nat × Int)} (hlaid : LaidOut os gs r)
      (hos : os₁.length = os.length) (hchanges : r.changes = ci :: rest)
      (hchange : r.handleCodeChange ci = some (true, r₁))
      (hhandled : Handled os₁ gs r r₁ (r.notified ci).1 (r.notified ci).2 gs₁)
      (hturns : BlockTurns gs₁ { r₁ with changes := r₁.changes.tail } relocs gs' r') :
      BlockTurns gs r ((if relocates ci then [r.notified ci] else []) ++ relocs) gs' r'

/-- What a turn does to a bci, with a relocation or without one. -/
theorem movedAll_turn {ci : ChangeItem} (h : r.handleCodeChange ci = some (true, r')) (bci : Nat) :
    movedAll (if relocates ci then [r.notified ci] else []) bci =
      ChangeItem.moved (r.notified ci).1 (r.notified ci).2 bci := by
  rcases handleCodeChange_relocation h with ⟨hrelocates, -⟩ | ⟨hstays, -, hzero⟩
  · rw [hrelocates]
    rfl
  · rw [hstays, hzero, moved_zero]
    rfl

/-- Each block starts where the relocations move it. -/
theorem BlockTurns.starts {gs gs' : List Block} {relocs : List (Nat × Int)}
    (h : BlockTurns gs r relocs gs' r') (k : Nat) :
    startOf gs' k = movedAll relocs (startOf gs k) := by
  induction h with
  | refl => rfl
  | turn hlaid hos hchanges hchange hhandled hturns ih =>
    rw [ih, hhandled.starts, movedAll_append, movedAll_turn hchange]

/-- Changes that are no `widen` keep the instructions that the blocks come from. -/
theorem Turns.blockTurns {os gs : List Block} {relocs : List (Nat × Int)}
    (h : Turns r relocs r') (hlaid : LaidOut os gs r)
    (hwiden : ∀ ci ∈ r.changes, ci.isWiden = false) :
    ∃ gs', BlockTurns gs r relocs gs' r' ∧ LaidOut os gs' r' ∧
      ∀ ci ∈ r'.changes, ci.isWiden = false := by
  induction h generalizing gs with
  | refl r => exact ⟨gs, .refl gs r, hlaid, hwiden⟩
  | turn hchanges hchange hturns ih =>
    obtain ⟨gs₁, hhandled⟩ := handleCodeChange_handled hlaid hchanges
      (hwiden _ (hchanges ▸ List.mem_cons_self)) hchange
    obtain ⟨gs', hblocks, hlaid'⟩ := ih hhandled.laidOut
      (hhandled.isWiden fun ci hci => hwiden ci (List.mem_of_mem_tail hci))
    exact ⟨gs', .turn hlaid rfl hchanges hchange hhandled hblocks, hlaid'⟩

/-! ## Replacing an instruction -/

/-- A request to replace the instruction `g` of a method by the instruction `buf`. The callers
replace loads, stores and ldc's by others of their kind. -/
structure Insertion (method : ConstMethodOop) (as : List Block) (g : Block) (bs : List Block)
    (buf : ClassFileParser.Bytes) : Prop where
  method : InInstructions (as ++ g :: bs) method
  jump : isShortJump g.opcode = false
  switch : isSwitch g.opcode = false
  inserted : Block.Instruction ⟨0, buf⟩
  insertedSwitch : isSwitch (u1At buf 0) = false
  /-- We cannot overwrite more than 3 bytes. -/
  overwrite : g.length ≤ buf.length + 3

/-- The relocator with the request in its queue. -/
def requested (r : Relocator) (bci : Nat) (buf : ClassFileParser.Bytes) : Relocator :=
  { r with changes := [.widen bci buf.length buf] }

/-- The constructor takes the method, and makes room for more code. -/
theorem new_eq {method : ConstMethodOop} (h : new method = some r) : r.method = method ∧
    r.compressedLineNumberTable = none ∧ r.codeLength = method.code.length := by
  rw [new] at h
  split at h
  next r₁ hexpand =>
    obtain rfl := Option.some.inj h
    exact expandCodeArray_eq hexpand
  next => cases h

/-- There is a relocator for a method in instructions. -/
theorem exists_new {method : ConstMethodOop} {os : List Block} (h : InInstructions os method) :
    ∃ r, new method = some r ∧ LaidOut os os r := by
  obtain ⟨r, hr, hlaid, -⟩ := new_laidOut
    (List.forall₂_same.mpr fun o ho => (h.instruction o ho).relocated) h.code h.length
    (aligned_iff.mp h.aligned)
  exact ⟨r, hr, hlaid⟩

namespace Insertion

variable {method : ConstMethodOop} {as bs : List Block} {g : Block} {buf : ClassFileParser.Bytes}

theorem laidOut (h : Insertion method as g bs buf) (hnew : new method = some r) :
    LaidOut (as ++ g :: bs) (as ++ g :: bs) (r.requested (layout as).length buf) := by
  obtain ⟨r₀, hr₀, hlaid⟩ := exists_new h.method
  obtain rfl := Option.some.inj (hnew.symm.trans hr₀)
  have hat : BlockShape.At ((as ++ g :: bs).map Block.shape) (layout as).length g.shape :=
    ⟨as.map Block.shape, bs.map Block.shape, by simp, total_shape as⟩
  refine ⟨hlaid.relocated, hlaid.code, hlaid.codeLength, hlaid.capacity, hlaid.fits,
    ⟨fun ci hci => ?_, List.nodup_singleton _⟩, fun bci σ hσ hswitch => ?_⟩
  · rw [List.mem_singleton.mp hci]
    exact ⟨g.shape, hat, h.jump, h.switch⟩
  · exact Or.inr ((aligned_iff.mp h.method.aligned bci σ hσ hswitch).resolve_left
      List.not_mem_nil)

theorem notified (h : Insertion method as g bs buf) (hnew : new method = some r) :
    (r.requested (layout as).length buf).notified (.widen (layout as).length buf.length buf) =
      ((layout as).length, (buf.length : Int) - g.length) := by
  have hjump := h.jump
  have hilen := rcInstrLen_block (h.laidOut hnew)
    (fun hif => by simp [isShortJump, hif.1] at hjump)
    (fun hswitch => absurd (h.switch.symm.trans hswitch) Bool.false_ne_true)
  rw [Relocator.notified, hilen, Int.toNat_natCast]

/-- The first turn puts the new instruction in the place of the old one. -/
theorem handled (h : Insertion method as g bs buf) (hnew : new method = some r)
    (hchange : (r.requested (layout as).length buf).handleCodeChange
      (.widen (layout as).length buf.length buf) = some (true, r')) :
    ∃ gs₁, Handled (as ++ ⟨0, buf⟩ :: bs) (as ++ g :: bs) (r.requested (layout as).length buf) r'
      (layout as).length ((r.requested (layout as).length buf).notified
        (.widen (layout as).length buf.length buf)).2 gs₁ := by
  obtain ⟨gs₁, hhandled⟩ := handleWiden_handled (h.laidOut hnew) rfl rfl h.inserted.relocated
    h.insertedSwitch (Option.some.inj hchange)
  refine ⟨gs₁, ?_⟩
  rw [h.notified hnew]
  exact hhandled

theorem not_isWiden {os gs gs₁ : List Block}
    (hhandled : Handled os gs (r.requested breakBci buf) r' breakBci delta gs₁) :
    ∀ ci ∈ r'.changes.tail, ci.isWiden = false :=
  hhandled.isWiden fun _ hci => absurd hci List.not_mem_nil

/-- The blocks of a run of the request: those of the method, until the instruction is replaced. -/
theorem blockTurns (h : Insertion method as g bs buf) (hnew : new method = some r)
    {relocs : List (Nat × Int)} (hturns : Turns (r.requested (layout as).length buf) relocs r') :
    (relocs = [] ∧ r' = r.requested (layout as).length buf) ∨
      ∃ gs', BlockTurns (as ++ g :: bs) (r.requested (layout as).length buf) relocs gs' r' ∧
        LaidOut (as ++ ⟨0, buf⟩ :: bs) gs' r' ∧ ∀ ci ∈ r'.changes, ci.isWiden = false := by
  cases hturns with
  | refl => exact Or.inl ⟨rfl, rfl⟩
  | @turn _ r₁ _ ci rest relocs hchanges hchange hturns =>
    obtain ⟨rfl, rfl⟩ := List.cons.inj hchanges
    obtain ⟨gs₁, hhandled⟩ := h.handled hnew hchange
    obtain ⟨gs', hblocks, hlaid'⟩ := hturns.blockTurns hhandled.laidOut (not_isWiden hhandled)
    have hlength : (as ++ ⟨0, buf⟩ :: bs).length = (as ++ g :: bs).length := by simp
    exact Or.inr ⟨gs', .turn (h.laidOut hnew) hlength rfl hchange hhandled hblocks, hlaid'⟩

end Insertion

/-- The code is in blocks that relocation can make of the instructions, each at its place in the
same order. -/
structure RelocatedInto (os gs : List Block) (code : ClassFileParser.Bytes) : Prop where
  relocated : List.Forall₂ Relocated os gs
  code_eq : code = layout gs
  aligned : Aligned gs
  length_le : code.length ≤ maxMethodLength

theorem Handled.length_eq {os os₁ gs gs₁ : List Block} {bci : Nat}
    (h : Handled os₁ gs r r' bci delta gs₁) (hlaid : LaidOut os gs r)
    (hos : os₁.length = os.length) : gs₁.length = gs.length := by
  rw [← h.laidOut.relocated.length_eq, hos, hlaid.relocated.length_eq]

/-- A block behind a break stays behind it. -/
theorem Handled.behind {os os₁ gs gs₁ : List Block} {ci : ChangeItem} {rest : List ChangeItem}
    (h : Handled os₁ gs r r' ci.bci delta gs₁) (hlaid : LaidOut os gs r)
    (hos : os₁.length = os.length) (hchanges : r.changes = ci :: rest) {k : Nat}
    (hk : k ≤ gs.length) (hlt : ci.bci < startOf gs k) : ci.bci < startOf gs₁ k := by
  obtain ⟨j, hj, hstart⟩ := hlaid.exists_start (hchanges ▸ List.mem_cons_self)
  have hlength := h.length_eq hlaid hos
  have hstays : startOf gs₁ j = ci.bci := by
    rw [h.starts, hstart, ChangeItem.moved, if_neg (Nat.lt_irrefl _)]
  have hjk : j < k := by
    by_contra hle
    have hle' := startOf_le hlaid.pos (Nat.not_lt.mp hle) (Nat.le_of_lt hj)
    omega
  have hlt' := startOf_lt h.laidOut.pos hjk (hlength ▸ hk)
  omega

namespace Insertion

variable {method method' : ConstMethodOop} {as bs : List Block} {g : Block}
  {buf : ClassFileParser.Bytes} {fuel : Nat}

/-- A run that succeeds has made every change. -/
theorem succeeded (h : Insertion method as g bs buf) (hnew : new method = some r)
    (hrun : r.insertSpaceAt fuel (layout as).length buf.length buf = some (some method', r')) :
    ∃ gs' r₁, method' = r₁.newMethod ∧ r₁.changes = [] ∧
      BlockTurns (as ++ g :: bs) (r.requested (layout as).length buf)
        (relocations fuel (r.requested (layout as).length buf)) gs' r₁ ∧
      LaidOut (as ++ ⟨0, buf⟩ :: bs) gs' r₁ ∧
      RelocatedInto (as ++ ⟨0, buf⟩ :: bs) gs' method'.code := by
  rw [insertSpaceAt, ← requested] at hrun
  split at hrun
  next => cases hrun
  next => cases (Prod.mk.inj (Option.some.inj hrun)).1
  next r₁ hchanges =>
    obtain rfl := Option.some.inj (Prod.mk.inj (Option.some.inj hrun)).1
    obtain ⟨hturns, hmade, -⟩ := handleCodeChanges_turns hchanges
    rcases h.blockTurns hnew hturns with ⟨-, rfl⟩ | ⟨gs', hblocks, hlaid, -⟩
    · cases hmade rfl
    · have hcode : r₁.newMethod.code = layout gs' := by
        obtain ⟨slack, hslack⟩ := hlaid.code
        rw [newMethod]
        simp only [hlaid.codeLength, hslack, List.take_left]
      refine ⟨gs', r₁, rfl, hmade rfl, hblocks, hlaid, hlaid.relocated, hcode, ?_, ?_⟩
      · rw [aligned_iff, ← hmade rfl]
        exact hlaid.padded
      · rw [hcode]
        exact Nat.le_trans hlaid.layout_le hlaid.fits

/-- A run that fails ends in front of a change that is refused. -/
theorem failed (h : Insertion method as g bs buf) (hnew : new method = some r)
    (hrun : r.insertSpaceAt fuel (layout as).length buf.length buf = some (none, r')) :
    (∃ gs', BlockTurns (as ++ g :: bs) (r.requested (layout as).length buf)
      (relocations fuel (r.requested (layout as).length buf)) gs' r') ∧
      ∃ ci rest, r'.changes = ci :: rest ∧ r'.handleCodeChange ci = some (false, r') := by
  rw [insertSpaceAt, ← requested] at hrun
  split at hrun
  next => cases hrun
  next r₁ hchanges =>
    obtain rfl := (Prod.mk.inj (Option.some.inj hrun)).2
    obtain ⟨hturns, -, hrefused⟩ := handleCodeChanges_turns hchanges
    refine ⟨?_, hrefused rfl⟩
    rcases h.blockTurns hnew hturns with ⟨hrelocs, heq⟩ | ⟨gs', hblocks, -⟩
    · exact ⟨_, by rw [hrelocs, heq]; exact .refl _ _⟩
    · exact ⟨gs', hblocks⟩
  next => cases (Prod.mk.inj (Option.some.inj hrun)).1

end Insertion

/-- A switch and its target. -/
def switchBlocks : List Block :=
  [⟨1, [170, 0, 0, 0, 0, 18, 0, 0, 0, 0, 0, 0, 0, 0, 0, 0, 0, 18]⟩, ⟨0, [177]⟩]

/-- A method whose switch is moved by an ldc_w in front of it. -/
def switchMethod : ConstMethodOop where
  code := layout (⟨0, [18, 1]⟩ :: switchBlocks)
  nameIndex := 0
  signatureIndex := 0
  genericSignatureIndex := 0
  checkedExceptions := []
  exceptionTable := [0, 20, 20, 0]
  lineNumberTable := some [(0, 1), (2, 2), (20, 3)]
  localVariableTable := [⟨2, 19, 1, 2, 0, 0⟩]
  stackmapData := none

theorem insertion_switchMethod :
    Insertion switchMethod [] ⟨0, [18, 1]⟩ switchBlocks [19, 1, 0] where
  method := by
    refine ⟨fun o ho => ?_, aligned_of_get (by decide), rfl, by decide⟩
    rcases List.mem_cons.mp ho with rfl | ho
    · exact .of_plain rfl rfl (by decide)
    rcases List.mem_cons.mp ho with rfl | ho
    · exact ⟨by decide, fun h => (by cases h), fun _ => ⟨170, [0], _, rfl, rfl, 1, by decide, rfl⟩⟩
    · rw [List.mem_singleton.mp ho]
      exact .of_plain rfl rfl (by decide)
  jump := rfl
  switch := rfl
  inserted := .of_plain rfl rfl (by decide)
  insertedSwitch := rfl
  overwrite := by decide

/-- The method with the ldc_w, whose switch needs no padding any more. -/
def relocatedSwitchMethod : ConstMethodOop :=
  { switchMethod with
    code := [19, 1, 0, 170, 0, 0, 0, 17, 0, 0, 0, 0, 0, 0, 0, 0, 0, 0, 0, 17, 177]
    lineNumberTable := some [(0, 1), (2, 2), (19, 3)]
    localVariableTable := [⟨3, 18, 1, 2, 0, 0⟩] }

theorem insertSpaceAt_switchMethod : ∃ r r', new switchMethod = some r ∧
    r.insertSpaceAt 4 0 3 [19, 1, 0] = some (some relocatedSwitchMethod, r') ∧
    relocations 4 (r.requested 0 [19, 1, 0]) = [(0, 1), (3, -1)] :=
  ⟨_, _, rfl, rfl, rfl⟩

end Relocator

end HotSpot
