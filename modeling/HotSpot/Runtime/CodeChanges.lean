import HotSpot.Runtime.RelocatorChanges

/-! # Handling code changes

Each kind of change puts one relocated block in place of another. A run of changes ends with
blocks that are aligned, and moves each instruction to where the listener of the relocator has
it.
-/

namespace HotSpot

open ClassFileParser Bytecode Bytecodes BlockShape

theorem Bytecodes.isTableswitch_switch : ∀ opcode < 256, isSwitch opcode = true →
    isTableswitch opcode = !isLookupswitch opcode := by
  decide +kernel

/-- Where the `k`-th block starts. -/
def startOf (gs : List Block) (k : Nat) : Nat := (layout (gs.take k)).length

theorem startOf_congr {gs gs' : List Block} (h : gs'.map Block.shape = gs.map Block.shape)
    (k : Nat) : startOf gs' k = startOf gs k := by
  refine Relocator.layout_length_congr ?_
  rw [List.map_take, List.map_take, h]

/-- Each switch has the padding that its place asks for. -/
def Aligned (gs : List Block) : Prop :=
  ∀ as g bs, gs = as ++ g :: bs → isSwitch g.opcode = true → g.pad = switchPad (layout as).length

theorem aligned_iff {gs : List Block} : Aligned gs ↔ Padded (gs.map Block.shape) id [] := by
  constructor
  · rintro h bci σ ⟨σas, σbs, hsplit, rfl⟩ hswitch
    obtain ⟨as, gbs, rfl, rfl, hgbs⟩ := List.map_eq_append_iff.mp hsplit
    obtain ⟨g, bs, rfl, rfl, rfl⟩ := List.map_eq_cons_iff.mp hgbs
    exact Or.inr (total_shape as ▸ h as g bs rfl hswitch)
  · rintro h as g bs rfl hswitch
    exact (h _ g.shape ⟨as.map Block.shape, bs.map Block.shape, by simp, total_shape as⟩
      hswitch).resolve_left List.not_mem_nil

/-- The starts behind a block whose length changes move. -/
theorem startOf_resize {as bs : List Block} {g g' : Block} {delta : Int}
    (hlength : (g'.length : Int) = g.length + delta) (hpos : 0 < g.length) (k : Nat) :
    startOf (as ++ g' :: bs) k =
      ChangeItem.moved (layout as).length delta (startOf (as ++ g :: bs) k) := by
  rw [startOf, startOf, ChangeItem.moved]
  rcases Nat.lt_or_ge as.length k with hlt | hle
  · obtain ⟨j, rfl⟩ : ∃ j, k = as.length + (j + 1) := ⟨k - as.length - 1, by omega⟩
    simp only [List.take_length_add_append, List.take_succ_cons, layout_append, layout_cons,
      List.length_append]
    simp only [Block.length] at hlength hpos
    split <;> omega
  · rw [List.take_append_of_le_length hle, List.take_append_of_le_length hle]
    have hinit : (layout (as.take k)).length ≤ (layout as).length := by
      conv_rhs => rw [← List.take_append_drop k as, layout_append, List.length_append]
      exact Nat.le_add_right _ _
    split <;> omega

open Relocator in
/-- The bytes that a short jump is widened to. -/
theorem Relocated.widen_if {o g : Block} (h : Relocated o g) (hif : isIf g.opcode = true)
    (hlength : g.length = 3) (v : Int) : ∃ op x y, g.bytes = [op, x, y] ∧
      Relocated o ⟨g.pad, [op, 0, 6, 167, 0, 8, 200] ++ intBytes v⟩ := by
  have hshort : isShortJump g.opcode = true := by rw [isShortJump, hif, Bool.true_or]
  cases h with
  | plain _ _ hnot => cases hnot.symm.trans hshort
  | @shortJump op x y hop ho hjump =>
    exact ⟨op, x, y, rfl, .widenedIf hop ho hif⟩
  | wideJump | widenedGoto | widenedIf => cases hlength
  | switch _ _ hswitch => cases (isShortJump_switch hswitch).1.symm.trans hshort

open Relocator in
theorem Relocated.widen_goto {o g : Block} (h : Relocated o g) (hgoto : isGoto g.opcode = true)
    (hlength : g.length = 3) (v : Int) : ∃ op x y, g.bytes = [op, x, y] ∧
      Relocated o ⟨g.pad, UInt8.ofNat (if g.opcode = gotoOpcode then gotoWOpcode else jsrWOpcode) ::
        intBytes v⟩ := by
  have hshort : isShortJump g.opcode = true := by rw [isShortJump, hgoto, Bool.or_true]
  cases h with
  | plain _ _ hnot => cases hnot.symm.trans hshort
  | @shortJump op x y hop ho hjump =>
    have hgoto' : isGoto o.opcode = true := by
      rw [hop]
      exact hgoto
    have hsame : UInt8.ofNat (if Block.opcode ⟨o.pad, [op, x, y]⟩ = gotoOpcode then gotoWOpcode
        else jsrWOpcode) = if o.opcode = 167 then 200 else 201 := by
      rw [hop]
      change UInt8.ofNat (if op.toNat = 167 then 200 else 201) = _
      split <;> rfl
    rw [hsame]
    exact ⟨op, x, y, rfl, .widenedGoto ho hgoto'⟩
  | wideJump | widenedGoto | widenedIf => cases hlength
  | switch _ _ hswitch => cases (isShortJump_switch hswitch).1.symm.trans hshort

/-- A switch may get another padding. -/
theorem Relocated.repad {o g : Block} (h : Relocated o g) (hswitch : isSwitch g.opcode = true) :
    ∃ op p t, g.bytes = op :: (p ++ t) ∧ p.length = g.pad ∧ isSwitch op.toNat = true ∧
      TableLength op.toNat t ∧ ∀ q : Bytes, Relocated o ⟨q.length, op :: (q ++ t)⟩ := by
  have hjump := isShortJump_switch hswitch
  cases h with
  | plain _ _ _ _ hnot => cases hnot.symm.trans hswitch
  | shortJump _ _ hshort => cases hjump.1.symm.trans hshort
  | wideJump _ _ hwide => cases hjump.2.symm.trans hwide
  | widenedGoto =>
    rw [Block.opcode, u1At, List.getD_cons_zero] at hswitch
    split at hswitch <;> cases hswitch
  | widenedIf _ _ hif =>
    refine absurd hjump.1 (Bool.not_eq_false _ ▸ ?_)
    exact Bool.or_eq_true _ _ ▸ Or.inl hif
  | @switch op p t p' t' ho hpad hop htable hsame =>
    exact ⟨op, p', t', rfl, rfl, hop, hsame.tableLength htable,
      fun q => .switch ho hpad hop htable hsame⟩

namespace Relocator

variable {r r' : Relocator} {os os' gs : List Block} {delta : Int}

/-- What a handled change leaves behind: other blocks, which start where the listener has them,
and a queue with no other `widen` than there was. -/
structure Handled (os' gs : List Block) (r r' : Relocator) (breakBci : Nat) (delta : Int)
    (gs' : List Block) : Prop where
  laidOut : LaidOut os' gs' { r' with changes := r'.changes.tail }
  starts : ∀ k, startOf gs' k = ChangeItem.moved breakBci delta (startOf gs k)
  isWiden : (∀ ci ∈ r.changes.tail, ci.isWiden = false) →
    ∀ ci ∈ r'.changes.tail, ci.isWiden = false

/-- A relocation, with the region filled by a block. -/
theorem Opened.handled {as bs as' bs' : List Block} {g g' w : Block} {region slack : Bytes}
    {changes : List ChangeItem} {r₁ : Relocator} {ci : ChangeItem} {rest : List ChangeItem}
    (h : Opened os as' g' bs' region slack delta changes r₁)
    (has : as'.map Block.shape = as.map Block.shape)
    (hbs : bs'.map Block.shape = bs.map Block.shape)
    (hg : g'.shape = g.shape) (hchanges : r.changes = ci :: rest)
    (hbci : ci.bci = (layout as).length)
    (hnew : ∃ new, changes.map ChangeItem.forget = r.changes.map ChangeItem.forget ++ new ∧
      ∀ ci ∈ new, ci.isWiden = false)
    (hrel : List.Forall₂ Relocated os' (as' ++ w :: bs')) (hlength : w.length = region.length)
    (hpad : isSwitch w.opcode = true → w.pad = switchPad (layout as).length)
    (hr' : r' = { r₁ with codeArray := layout as' ++ w.bytes ++ layout bs' ++ slack }) :
    Handled os' (as ++ g :: bs) r r' (layout as).length delta (as' ++ w :: bs') := by
  obtain ⟨new, hforget, hwiden⟩ := hnew
  have haslen := layout_length_congr has
  have hglen : g'.length = g.length := congrArg BlockShape.length hg
  subst hr'
  rw [hchanges, List.map_cons, List.cons_append] at hforget
  refine ⟨?_, fun k => ?_, fun hrest => ?_⟩
  · exact h.close hforget (by rw [ChangeItem.forget_bci, hbci, haslen]) hrel hlength
      (by rw [haslen]; exact hpad) rfl rfl rfl rfl
  · have hshapes : (as' ++ g' :: bs').map Block.shape = (as ++ g :: bs).map Block.shape := by
      simp [has, hbs, hg]
    have hpos : 0 < g'.length := positive_shape h.relocated g'.shape (by simp)
    rw [← startOf_congr hshapes, ← haslen]
    exact startOf_resize (by rw [hlength, h.length]) hpos k
  · intro ci' hci'
    rw [hchanges] at hrest
    have hmem : ci'.forget ∈ r₁.changes.tail.map ChangeItem.forget := List.mem_map_of_mem hci'
    obtain ⟨c, cs, rfl, -, hcs⟩ := List.map_eq_cons_iff.mp hforget
    rw [h.changes_eq, List.map_cons, List.tail_cons] at hci'
    obtain ⟨c', hc', rfl⟩ := List.mem_map.mp hci'
    rw [ChangeItem.isWiden_relocate, ← ChangeItem.isWiden_forget]
    have hc'' : c'.forget ∈ cs.map ChangeItem.forget := List.mem_map_of_mem hc'
    rw [hcs] at hc''
    rcases List.mem_append.mp hc'' with hold | hnew
    · obtain ⟨c'', hmem'', heq⟩ := List.mem_map.mp hold
      rw [← heq, ChangeItem.isWiden_forget]
      exact hrest c'' hmem''
    · exact hwiden _ hnew

/-- The region that a relocation has opened in the place of a block, and what may be written into
it: any block that its instruction may become. -/
structure Region (os₁ : List Block) (o : Block) (os₂ as : List Block) (g : Block) (bs : List Block)
    (delta : Int) (r r₁ : Relocator) (as' : List Block) (g' : Block) (bs' : List Block)
    (region slack : Bytes) : Prop where
  opened : ∃ changes, Opened (os₁ ++ o :: os₂) as' g' bs' region slack delta changes r₁
  before : os₁.length = as.length
  relocated : Relocated o g'
  shape : g'.shape = g.shape
  start : (layout as').length = (layout as).length
  code : r₁.codeArray = layout as' ++ region ++ (layout bs' ++ slack)
  length : (region.length : Int) = g.length + delta
  handled : ∀ {o' w : Block} {r' : Relocator}, Relocated o' w → w.length = region.length →
    (isSwitch w.opcode = true → w.pad = switchPad (layout as).length) →
    r' = { r₁ with codeArray := layout as' ++ w.bytes ++ (layout bs' ++ slack) } →
    ∃ gs', Handled (os₁ ++ o' :: os₂) (as ++ g :: bs) r r' (layout as).length delta gs'

theorem relocateCode_region {as bs : List Block} {g : Block} {ci : ChangeItem}
    {rest : List ChangeItem} {r₁ : Relocator} (h : LaidOut os (as ++ g :: bs) r)
    (hnot : ¬(isIf g.opcode = true ∧ g.length = 11)) (hlength : 0 ≤ g.length + delta)
    (hchanges : r.changes = ci :: rest) (hbci : ci.bci = (layout as).length)
    (hrelocate : r.relocateCode (layout as).length g.length delta = (true, r₁)) :
    ∃ os₁ o os₂ as' g' bs' region slack, os = os₁ ++ o :: os₂ ∧
      Region os₁ o os₂ as g bs delta r r₁ as' g' bs' region slack := by
  obtain ⟨as', g', bs', region, slack, changes, hopened, has, hg, hbs, hnew⟩ :=
    relocateCode_opened h hnot hlength hrelocate
  obtain ⟨os₁, o, os₂, rfl, hfront, hrel, hback⟩ := forall₂_split hopened.relocated
  refine ⟨os₁, o, os₂, as', g', bs', region, slack, rfl, ⟨changes, hopened⟩, ?_, hrel, hg,
    layout_length_congr has, hopened.code.trans (List.append_assoc _ _ _), ?_,
    fun hw hwlength hpad hr' => ⟨_, hopened.handled has hbs hg hchanges hbci hnew
      (List.rel_append hfront (.cons hw hback)) hwlength hpad
      (hr'.trans (by rw [← List.append_assoc]))⟩⟩
  · rw [hfront.length_eq, ← List.length_map (f := Block.shape), has, List.length_map]
  · rw [hopened.length]
    exact congrArg (fun n : Nat => (n : Int) + delta) (congrArg BlockShape.length hg)

/-! ## Lengths -/

/-- The length of the instruction that a change is about. -/
theorem rcInstrLen_block {as bs : List Block} {g : Block}
    (h : LaidOut os (as ++ g :: bs) r) (hnot : ¬(isIf g.opcode = true ∧ g.length = 11))
    (hrecorded : isSwitch g.opcode = true →
      .switchPad (layout as).length g.pad (isLookupswitch g.opcode) ∈ r.changes) :
    r.rcInstrLen (layout as).length = g.length := by
  obtain ⟨slack, hcode⟩ := h.code
  have hcode' : r.codeArray = layout as ++ g.bytes ++ (layout bs ++ slack) := by rw [hcode]; simp
  have hat : At ((as ++ g :: bs).map Block.shape) (layout as).length g.shape :=
    ⟨as.map Block.shape, bs.map Block.shape, by simp, total_shape as⟩
  have hpos : 0 < g.bytes.length := positive_shape h.relocated g.shape (by simp)
  have hop : r.codeAt (layout as).length = g.opcode := codeAt_block hcode' hpos
  obtain ⟨os₁, o, os₂, -, -, hrel, -⟩ := forall₂_split h.relocated
  have hplain : isSwitch g.opcode = false → lengthAt g.bytes 0 = g.length →
      r.rcInstrLen (layout as).length = g.length := by
    intro hswitch hlength
    rw [rcInstrLen, hop]
    simp only [hswitch, Bool.false_eq_true, if_false]
    rw [hcode', lengthAt_block hpos hlength hswitch]
    rfl
  cases hrel with
  | plain _ hlength _ _ hswitch => exact hplain hswitch hlength
  | @shortJump op x y _ _ hjump =>
    exact hplain (isSwitch_shortJump hjump)
      (lengthAt_fixed (lengthFor_shortJump op.toNat (UInt8.toNat_lt op) hjump) (Nat.succ_pos _))
  | @wideJump op x y z w _ _ hjump =>
    exact hplain (isSwitch_wideJump hjump)
      (lengthAt_fixed (lengthFor_wideJump op.toNat (UInt8.toNat_lt op) hjump) (Nat.succ_pos _))
  | widenedGoto _ _ =>
    have hwide : isWideJump (if o.opcode = 167 then (200 : UInt8) else 201).toNat = true := by
      split <;> rfl
    exact hplain (isSwitch_wideJump hwide)
      (lengthAt_fixed (lengthFor_wideJump _ (UInt8.toNat_lt _) hwide) (Nat.succ_pos _))
  | widenedIf _ _ hjump => exact absurd ⟨hjump, rfl⟩ hnot
  | @switch op p t p' t' _ _ hswitch htable hsame =>
    obtain ⟨hin, -⟩ := h.queued.getOrigSwitchPad (positive_shape h.relocated) hat
    have hlength : switchLength (layout as ++ op :: (p' ++ t') ++ (layout bs ++ slack))
        (layout as).length p'.length = 1 + p'.length + t'.length :=
      switchLength_block (hsame.tableLength htable)
    have hbytes : (op :: (p' ++ t')).length = 1 + p'.length + t'.length := by
      simp only [List.length_cons, List.length_append]
      omega
    have hswitch' : isSwitch (Block.opcode ⟨p'.length, op :: (p' ++ t')⟩) = true := hswitch
    have hpad : r.getOrigSwitchPad (layout as).length
        (isLookupswitch (Block.opcode ⟨p'.length, op :: (p' ++ t')⟩)) = some p'.length :=
      hin (hrecorded hswitch)
    rw [rcInstrLen, hop, if_pos hswitch', hpad, hcode']
    simp only [Block.length, hbytes]
    exact_mod_cast hlength

/-! ## Widening an instruction -/

theorem handleWiden_handled {os₁ os₂ as bs : List Block} {o g : Block} {pad : Nat} {buf : Bytes}
    {rest : List ChangeItem} (h : LaidOut (os₁ ++ o :: os₂) (as ++ g :: bs) r)
    (hos : os₁.length = as.length)
    (hchanges : r.changes = .widen (layout as).length buf.length buf :: rest)
    (hbuf : Relocated ⟨pad, buf⟩ ⟨pad, buf⟩) (hswitch : isSwitch (u1At buf 0) = false)
    (hrun : r.handleWiden (layout as).length buf.length buf = (true, r')) :
    ∃ gs', Handled (os₁ ++ ⟨pad, buf⟩ :: os₂) (as ++ g :: bs) r r' (layout as).length
      (buf.length - g.length) gs' := by
  have hat : At ((as ++ g :: bs).map Block.shape) (layout as).length g.shape :=
    ⟨as.map Block.shape, bs.map Block.shape, by simp, total_shape as⟩
  obtain ⟨σ, hσ, hnotJump, hnotSwitch⟩ := h.queued.about _ (hchanges ▸ List.mem_cons_self)
  obtain rfl := At.unique (positive_shape h.relocated) hσ hat
  have hnot : ¬(isIf g.opcode = true ∧ g.length = 11) := by
    rintro ⟨hif, -⟩
    simp only [Block.shape, isShortJump, hif, Bool.true_or] at hnotJump
    cases hnotJump
  have hilen := rcInstrLen_block h hnot fun hswitch =>
    absurd (hnotSwitch.symm.trans hswitch) Bool.false_ne_true
  rw [handleWiden, hilen, Int.toNat_natCast] at hrun
  split at hrun
  next => cases (Prod.mk.inj hrun).1
  next r₁ hrelocate =>
    obtain rfl := (Prod.mk.inj hrun).2
    obtain ⟨os₁', o', os₂', as', g', bs', region, slack, hsplit, hregion⟩ :=
      relocateCode_region h hnot (by omega) hchanges rfl hrelocate
    obtain ⟨rfl, hcons⟩ := List.append_inj hsplit (hos.trans hregion.before.symm)
    obtain ⟨rfl, rfl⟩ := List.cons.inj hcons
    have hlength : region.length = buf.length := by
      have hlength := hregion.length
      omega
    refine hregion.handled hbuf hlength.symm
      (fun h => absurd (hswitch.symm.trans h) Bool.false_ne_true) ?_
    rw [hregion.code, List.take_of_length_le (Nat.le_refl _), ← hregion.start,
      ← Nat.add_zero (layout as').length, putBytes_block (by omega), putBytes_all hlength.symm]

/-! ## Widening a jump -/

theorem codeAtPut_block {front b rest : Bytes} {k : Nat}
    (hcode : r.codeArray = front ++ b ++ rest) (hk : k + 1 ≤ b.length) (opcode : Nat) :
    r.codeAtPut (front.length + k) opcode =
      { r with codeArray := front ++ putBytes b k [UInt8.ofNat opcode] ++ rest } := by
  rw [codeAtPut, hcode, putBytes_block hk]

/-- The three instructions that an `if` becomes are written into its place. -/
theorem put_widenedIf {front region rest : Bytes} (hcode : r.codeArray = front ++ region ++ rest)
    (hregion : region.length = 11) (v : Int) :
    ((((r.shortAtPut (front.length + 1) 6).codeAtPut (front.length + 3) gotoOpcode).shortAtPut
        (front.length + 4) 8).codeAtPut (front.length + 6) gotoWOpcode).intAtPut
        (front.length + 7) v =
      { r with codeArray :=
          front ++ (region.take 1 ++ [0, 6, 167, 0, 8, 200] ++ intBytes v) ++ rest } := by
  match region, hregion, hcode with
  | [b0, b1, b2, b3, b4, b5, b6, b7, b8, b9, b10], _, hcode =>
    rw [shortAtPut_block hcode (by simp), codeAtPut_block (k := 3) rfl (by simp [putBytes]),
      shortAtPut_block (k := 4) rfl (by simp [putBytes]),
      codeAtPut_block (k := 6) rfl (by simp [putBytes]),
      intAtPut_block rfl (by simp [putBytes])]
    rfl

theorem put_widenedGoto {front region rest : Bytes}
    (hcode : r.codeArray = front ++ region ++ rest) (hregion : region.length = 5) (opcode : Nat)
    (v : Int) :
    (r.codeAtPut front.length opcode).intAtPut (front.length + 1) v =
      { r with codeArray := front ++ (UInt8.ofNat opcode :: intBytes v) ++ rest } := by
  rw [← Nat.add_zero front.length, codeAtPut_block hcode (by omega), Nat.add_zero,
    intAtPut_block rfl]
  · match region, hregion with
    | [b0, b1, b2, b3, b4], _ => rfl
  · simp [putBytes_length, hregion]

section Region

variable {os₁ os₂ as bs as' bs' : List Block} {o g g' : Block} {region slack : Bytes}
  {r₁ : Relocator}

theorem Region.widenIf (h : Region os₁ o os₂ as g bs 8 r r₁ as' g' bs' region slack)
    (hif : isIf g.opcode = true) (hthree : g.length = 3) (v : Int) :
    ∃ gs', Handled (os₁ ++ o :: os₂) (as ++ g :: bs) r
      (((((r₁.shortAtPut ((layout as).length + 1) 6).codeAtPut ((layout as).length + 3)
        gotoOpcode).shortAtPut ((layout as).length + 4) 8).codeAtPut ((layout as).length + 6)
        gotoWOpcode).intAtPut ((layout as).length + 7) v) (layout as).length 8 gs' := by
  obtain ⟨changes, hopened⟩ := h.opened
  have hglen : g'.length = 3 := (congrArg BlockShape.length h.shape).trans hthree
  have hregion : region.length = 11 := by
    have hlength := h.length
    omega
  have hif' : isIf g'.opcode = true := (congrArg (isIf ∘ BlockShape.opcode) h.shape).trans hif
  obtain ⟨op, x, y, hbytes, hwidened⟩ := h.relocated.widen_if hif' hglen v
  have hkept : region.take 3 = [op, x, y] := by
    rw [← hglen, hopened.kept, hbytes, hregion]
    rfl
  have hhead : region.take 1 = [op] := by
    rw [← Nat.min_eq_left (show 1 ≤ 3 by omega), ← List.take_take, hkept]
    rfl
  have hjump : isShortJump op.toNat = true := by
    have hopcode : g'.opcode = op.toNat := by rw [Block.opcode, hbytes]; rfl
    rw [isShortJump, ← hopcode, hif', Bool.true_or]
  have hput := put_widenedIf h.code hregion v
  rw [hhead, h.start] at hput
  exact h.handled hwidened hregion.symm
    (fun hswitch => absurd hswitch (Bool.not_eq_true _ ▸ isSwitch_shortJump hjump)) hput

theorem Region.widenGoto (h : Region os₁ o os₂ as g bs 2 r r₁ as' g' bs' region slack)
    (hgoto : isGoto g.opcode = true) (hthree : g.length = 3) (v : Int) :
    ∃ gs', Handled (os₁ ++ o :: os₂) (as ++ g :: bs) r
      ((r₁.codeAtPut (layout as).length
        (if g.opcode = gotoOpcode then gotoWOpcode else jsrWOpcode)).intAtPut
        ((layout as).length + 1) v) (layout as).length 2 gs' := by
  have hregion : region.length = 5 := by
    have hlength := h.length
    omega
  have hopcode : g'.opcode = g.opcode := congrArg BlockShape.opcode h.shape
  obtain ⟨op, x, y, hbytes, hwidened⟩ := h.relocated.widen_goto (hopcode ▸ hgoto)
    ((congrArg BlockShape.length h.shape).trans hthree) v
  rw [hopcode] at hwidened
  have hswitch : isSwitch (UInt8.ofNat
      (if g.opcode = gotoOpcode then gotoWOpcode else jsrWOpcode)).toNat = false := by
    split <;> rfl
  have hput := put_widenedGoto h.code hregion
    (if g.opcode = gotoOpcode then gotoWOpcode else jsrWOpcode) v
  rw [h.start] at hput
  exact h.handled hwidened hregion.symm
    (fun h => absurd h (Bool.not_eq_true _ ▸ hswitch)) hput

end Region

theorem handleJumpWiden_handled {os as bs : List Block} {g : Block} {newDelta : Int}
    {rest : List ChangeItem} (h : LaidOut os (as ++ g :: bs) r)
    (hchanges : r.changes = .jumpWiden (layout as).length newDelta :: rest)
    (hrun : r.handleJumpWiden (layout as).length newDelta = some (true, r')) :
    ∃ gs', Handled os (as ++ g :: bs) r r' (layout as).length
      (if isIf g.opcode = true then 8 else 2) gs' := by
  have hat : At ((as ++ g :: bs).map Block.shape) (layout as).length g.shape :=
    ⟨as.map Block.shape, bs.map Block.shape, by simp, total_shape as⟩
  obtain ⟨slack₀, hcode₀⟩ := h.code
  have hpos : 0 < g.bytes.length := positive_shape h.relocated g.shape (by simp)
  have hop : r.codeAt (layout as).length = g.opcode :=
    codeAt_block
      (by rw [hcode₀, layout_append, layout_cons]; simp only [List.append_assoc]; rfl) hpos
  obtain ⟨σ, hσ, hshort, hthree⟩ := h.queued.about _ (hchanges ▸ List.mem_cons_self)
  obtain rfl := At.unique (positive_shape h.relocated) hσ hat
  replace hthree : g.length = 3 := hthree
  have hnot : ¬(isIf g.opcode = true ∧ g.length = 11) := by
    rintro ⟨-, heleven⟩
    omega
  have hilen := rcInstrLen_block h hnot fun hswitch =>
    absurd (isSwitch_shortJump hshort ▸ hswitch : false = true) Bool.false_ne_true
  rw [handleJumpWiden, hilen, hop, Int.toNat_natCast, hthree] at hrun
  split at hrun
  next hif =>
    rw [if_pos hif]
    replace hrun := Option.some.inj hrun
    split at hrun
    next => cases (Prod.mk.inj hrun).1
    next r₁ hrelocate =>
      obtain rfl := (Prod.mk.inj hrun).2
      have hrelocate' : r.relocateCode (layout as).length g.length 8 = (true, r₁) :=
        hthree.symm ▸ hrelocate
      obtain ⟨_, _, _, _, _, _, _, _, rfl, hregion⟩ :=
        relocateCode_region h hnot (by omega) hchanges rfl hrelocate'
      exact hregion.widenIf hif hthree
        (if newDelta > 0 then newDelta + 2 else newDelta - ((3 : Nat) + lengthFor gotoOpcode))
  next hif =>
    rw [if_neg hif]
    split at hrun
    next hgoto =>
      replace hrun := Option.some.inj hrun
      split at hrun
      next => cases (Prod.mk.inj hrun).1
      next r₁ hrelocate =>
        obtain rfl := (Prod.mk.inj hrun).2
        rw [← hthree] at hrelocate
        obtain ⟨_, _, _, _, _, _, _, _, rfl, hregion⟩ :=
          relocateCode_region h hnot (by omega) hchanges rfl hrelocate
        exact hregion.widenGoto hgoto hthree _
    next => cases hrun

/-! ## Aligning a switch -/

theorem moved_zero (bci : Nat) : ChangeItem.moved bci 0 = id := by
  funext b
  rw [ChangeItem.moved]
  split
  next => simp
  next => rfl

theorem relocate_zero (bci : Nat) (changes : List ChangeItem) :
    changes.map (ChangeItem.relocate bci 0) = changes := by
  refine (List.map_congr_left fun ci _ => ?_).trans (List.map_id _)
  rw [ChangeItem.relocate, moved_zero]
  cases ci <;> rfl

theorem putBytes_replace {front b rest bytes : Bytes} (h : bytes.length = b.length) :
    putBytes (front ++ b ++ rest) front.length bytes = front ++ bytes ++ rest := by
  rw [← Nat.add_zero front.length, putBytes_block (by omega), putBytes_all h]

theorem take_drop_append {front b rest : Bytes} :
    ((front ++ b ++ rest).drop front.length).take b.length = b := by
  rw [List.append_assoc, List.drop_left, List.take_left]

/-- The words of a switch move down, over bytes that are put behind them afterwards. -/
theorem moveTable_down (front p₁ p₂ t₁ t₂ rest : Bytes) (op : UInt8)
    (hlength : t₂.length = p₂.length) :
    putBytes (moveBytes (front ++ (op :: (p₁ ++ p₂ ++ t₁)) ++ rest) (front.length + 1 + p₁.length)
        (front.length + 1 + (p₁.length + p₂.length)) t₁.length)
        (front.length + 1 + p₁.length + t₁.length) t₂ =
      front ++ (op :: (p₁ ++ (t₁ ++ t₂))) ++ rest := by
  have hdst : front.length + 1 + p₁.length = (front ++ op :: p₁).length := by
    simp only [List.length_append, List.length_cons]
    omega
  have hsrc : front.length + 1 + (p₁.length + p₂.length) = (front ++ op :: (p₁ ++ p₂)).length := by
    simp only [List.length_append, List.length_cons]
    omega
  have hread : front ++ (op :: (p₁ ++ p₂ ++ t₁)) ++ rest =
      (front ++ op :: (p₁ ++ p₂)) ++ t₁ ++ rest := by simp
  have hwrite : front ++ (op :: (p₁ ++ p₂ ++ t₁)) ++ rest =
      (front ++ op :: p₁) ++ (p₂ ++ t₁).take t₁.length ++ ((p₂ ++ t₁).drop t₁.length ++ rest) := by
    rw [List.append_assoc (front ++ op :: p₁), ← List.append_assoc (List.take _ _),
      List.take_append_drop]
    simp
  have hmove : moveBytes (front ++ (op :: (p₁ ++ p₂ ++ t₁)) ++ rest) (front.length + 1 + p₁.length)
      (front.length + 1 + (p₁.length + p₂.length)) t₁.length =
      (front ++ op :: p₁) ++ t₁ ++ ((p₂ ++ t₁).drop t₁.length ++ rest) := by
    rw [moveBytes, hsrc]
    conv_lhs => arg 3; rw [hread, take_drop_append]
    rw [hwrite, hdst, putBytes_replace]
    simp
  have hend : front.length + 1 + p₁.length + t₁.length = (front ++ op :: p₁ ++ t₁).length := by
    rw [List.length_append, ← hdst]
  rw [hmove, hend, ← List.append_assoc, putBytes_replace]
  · simp
  · rw [List.length_drop, List.length_append]
    omega

/-- The words of a switch move up. -/
theorem moveTable_up (front p t extra rest : Bytes) (op : UInt8) {n : Nat}
    (hn : n = p.length + extra.length) :
    moveBytes (front ++ (op :: (p ++ t ++ extra)) ++ rest) (front.length + 1 + n)
        (front.length + 1 + p.length) t.length =
      front ++ (op :: ((p ++ t ++ extra).take n ++ t)) ++ rest := by
  have hlen : ((p ++ t ++ extra).take n).length = n := by
    rw [List.length_take]
    simp only [List.length_append]
    omega
  have hdst : front.length + 1 + n = (front ++ op :: (p ++ t ++ extra).take n).length := by
    simp only [List.length_append, List.length_cons, hlen]
    omega
  have hsrc : front.length + 1 + p.length = (front ++ op :: p).length := by
    simp only [List.length_append, List.length_cons]
    omega
  have hread : front ++ (op :: (p ++ t ++ extra)) ++ rest =
      (front ++ op :: p) ++ t ++ (extra ++ rest) := by simp
  have hwrite : front ++ (op :: (p ++ t ++ extra)) ++ rest =
      (front ++ op :: (p ++ t ++ extra).take n) ++ (p ++ t ++ extra).drop n ++ rest := by
    conv_lhs => rw [← List.take_append_drop n (p ++ t ++ extra)]
    simp only [List.append_assoc, List.cons_append]
  rw [moveBytes, hsrc]
  conv_lhs => arg 3; rw [hread, take_drop_append]
  rw [hwrite, hdst, putBytes_replace]
  · simp
  · rw [List.length_drop]
    simp only [List.length_append]
    omega

/-- The words of a switch. -/
theorem switchWords_block {front rest : Bytes} {op : UInt8} {p t : Bytes}
    (hcode : r.codeArray = front ++ op :: (p ++ t) ++ rest) (htable : TableLength op.toNat t)
    (hswitch : isSwitch op.toNat = true) :
    r.switchWords front.length p.length (isLookupswitch op.toNat) * 4 = t.length := by
  have hle := TableLength.length_le htable
  have hword : ∀ w, 4 * w + 4 ≤ t.length →
      r.intAt (front.length + 1 + p.length + 4 * w) = jintAt t (4 * w) := by
    intro w hw
    rw [intAt, hcode, jintAt_table hw]
  have htableOrLookup := isTableswitch_switch op.toNat (UInt8.toNat_lt op) hswitch
  rw [switchWords]
  rw [TableLength] at htable
  cases hlookup : isLookupswitch op.toNat with
  | true =>
    rw [hlookup] at htableOrLookup
    rw [if_neg (by rw [htableOrLookup]; decide)] at htable hle
    obtain ⟨n, hn, hlength⟩ := htable
    have h1 := hword 1 (by omega)
    simp only [if_true, Nat.mul_one] at h1 ⊢
    rw [h1, hn]
    omega
  | false =>
    rw [hlookup] at htableOrLookup
    rw [if_pos (by rw [htableOrLookup]; decide)] at htable hle
    obtain ⟨n, hn, hlength⟩ := htable
    have h1 := hword 1 (by omega)
    have h2 := hword 2 (by omega)
    simp only [Bool.false_eq_true, if_false, Nat.mul_one, Nat.reduceMul] at h1 h2 ⊢
    rw [h1, h2]
    omega

/-- What the code gives for the words of a switch, which has two at least. -/
theorem switchWords_laidOut {os as bs : List Block} {g : Block} (h : LaidOut os (as ++ g :: bs) r)
    (hswitch : isSwitch g.opcode = true) :
    g.length = 1 + g.pad + r.switchWords (layout as).length g.pad (isLookupswitch g.opcode) * 4 ∧
      8 ≤ r.switchWords (layout as).length g.pad (isLookupswitch g.opcode) * 4 := by
  obtain ⟨slack, hcode⟩ := h.code
  obtain ⟨os₁, o, os₂, -, -, hrel, -⟩ := forall₂_split h.relocated
  obtain ⟨op, p, t, hbytes, hp, hop, htable, -⟩ := hrel.repad hswitch
  have hopcode : g.opcode = op.toNat := by rw [Block.opcode, hbytes]; rfl
  have hcode' : r.codeArray = layout as ++ op :: (p ++ t) ++ (layout bs ++ slack) := by
    rw [hcode, layout_append, layout_cons, hbytes]
    simp
  have hle := TableLength.length_le htable
  rw [hopcode, ← hp, switchWords_block hcode' htable hop, Block.length, hbytes]
  simp only [List.length_cons, List.length_append]
  refine ⟨by omega, ?_⟩
  split at hle <;> omega

/-- A switch that is aligned stays as it is. -/
theorem handled_self {os as bs : List Block} {g : Block} {lookup : Bool} {oldPad : Nat}
    {rest : List ChangeItem} (h : LaidOut os (as ++ g :: bs) r)
    (hchanges : r.changes = .switchPad (layout as).length oldPad lookup :: rest)
    (hpad : g.pad = switchPad (layout as).length) :
    Handled os (as ++ g :: bs) r r (layout as).length 0 (as ++ g :: bs) := by
  have hqueued := h.queued
  have hpadded := h.padded
  have hpos := positive_shape h.relocated
  have htotal : total (as.map Block.shape) = (layout as).length := total_shape as
  rw [List.map_append, List.map_cons, hchanges] at hqueued hpadded
  rw [List.map_append, List.map_cons] at hpos
  have hgpos := hpos g.shape (by simp)
  have hlength : (g.shape.length : Int) = g.shape.length + 0 := by omega
  refine ⟨⟨h.relocated, h.code, h.codeLength, h.capacity, h.fits, ?_, ?_⟩,
    fun k => by rw [moved_zero]; rfl, fun hrest => hrest⟩
  · have hresult := hqueued.resize hpos htotal.symm hgpos hlength
    rw [relocate_zero] at hresult
    rw [List.map_append, List.map_cons, hchanges]
    exact hresult
  · rw [← moved_zero (total (as.map Block.shape))] at hpadded
    have hresult := hpadded.resize hpos htotal.symm hgpos hlength fun _ => htotal ▸ hpad
    rw [relocate_zero] at hresult
    rw [List.map_append, List.map_cons, hchanges]
    exact hresult

section Opened

variable {as bs : List Block} {g : Block} {region slack p t : Bytes} {op : UInt8} {newPad : Nat}
  {changes : List ChangeItem}

/-- With less padding the words move down, and those that were overwritten are put behind them. -/
theorem Opened.padLess (h : Opened os as g bs region slack delta changes r)
    (hbytes : g.bytes = op :: (p ++ t)) (hdelta : (newPad : Int) - p.length = delta)
    (hless : delta < 0) (hcut : p.length ≤ newPad + t.length) :
    putBytes (moveBytes r.codeArray ((layout as).length + 1 + newPad)
        ((layout as).length + 1 + p.length) (t.length + delta).toNat)
        ((layout as).length + 1 + newPad + (t.length + delta).toNat)
        (r.overwrite.take (-delta).toNat) =
      layout as ++ op :: (p.take newPad ++ t) ++ layout bs ++ slack := by
  obtain ⟨n, hn⟩ : ∃ n : Nat, p.length = newPad + n := ⟨p.length - newPad, by omega⟩
  obtain ⟨p₁, p₂, rfl, hp₁⟩ : ∃ p₁ p₂, p = p₁ ++ p₂ ∧ p₁.length = newPad :=
    ⟨p.take newPad, p.drop newPad, (List.take_append_drop _ _).symm, by
      rw [List.length_take]; omega⟩
  -- As many bytes of the table lie behind the region.
  obtain ⟨t₁, t₂, rfl, ht₂⟩ : ∃ t₁ t₂, t = t₁ ++ t₂ ∧ t₂.length = n :=
    ⟨t.take (t.length - n), t.drop (t.length - n), (List.take_append_drop _ _).symm, by
      rw [List.length_drop]; omega⟩
  have hover := h.overwrite hless
  have hkept := h.kept
  have hregion := h.length
  have hbytes₁ : g.bytes = op :: (p₁ ++ p₂ ++ t₁) ++ t₂ := by rw [hbytes]; simp
  have hlen₁ : region.length = (op :: (p₁ ++ p₂ ++ t₁)).length := by
    rw [Block.length, hbytes] at hregion
    simp only [List.length_cons, List.length_append] at hregion hn hdelta ⊢
    omega
  rw [hlen₁, hbytes₁, List.drop_left] at hover
  rw [Block.length, List.take_of_length_le (by rw [hlen₁, hbytes₁]; simp), hlen₁, hbytes₁,
    List.take_left] at hkept
  rw [List.length_append] at hn hdelta hcut
  have hcount : (((t₁ ++ t₂).length : Int) + delta).toNat = t₁.length := by
    rw [List.length_append]
    omega
  have htake : r.overwrite.take (-delta).toNat = t₂ := by
    rw [hover, List.take_of_length_le (by omega)]
  have hmove := moveTable_down (layout as) p₁ p₂ t₁ t₂ (layout bs ++ slack) op (by omega)
  rw [hcount, htake, h.code, hkept, ← hp₁, List.length_append, List.append_assoc _ (layout bs),
    hmove, List.take_left]
  simp

/-- With more padding the words move up. -/
theorem Opened.padMore (h : Opened os as g bs region slack delta changes r)
    (hbytes : g.bytes = op :: (p ++ t)) (hdelta : (newPad : Int) - p.length = delta)
    (hmore : 0 ≤ delta) : ∃ q : Bytes, q.length = newPad ∧
      moveBytes r.codeArray ((layout as).length + 1 + newPad) ((layout as).length + 1 + p.length)
        t.length = layout as ++ op :: (q ++ t) ++ layout bs ++ slack := by
  have hregion := h.length
  obtain ⟨extra, rfl⟩ : ∃ extra, region = op :: (p ++ t ++ extra) := by
    refine ⟨region.drop g.length, ?_⟩
    have hall : g.bytes.take region.length = g.bytes :=
      List.take_of_length_le (by change g.length ≤ _; omega)
    conv_lhs => rw [← List.take_append_drop g.length region, h.kept, hall, hbytes]
    simp
  rw [Block.length, hbytes] at hregion
  simp only [List.length_cons, List.length_append] at hregion
  refine ⟨(p ++ t ++ extra).take newPad, ?_, ?_⟩
  · rw [List.length_take]
    simp only [List.length_append]
    omega
  · have hmove := moveTable_up (layout as) p t extra (layout bs ++ slack) op
      (show newPad = p.length + extra.length by omega)
    rw [h.code, List.append_assoc _ (layout bs), hmove]
    simp

end Opened

theorem handleSwitchPad_handled {os as bs : List Block} {g : Block} {lookup : Bool} {oldPad : Nat}
    {rest : List ChangeItem} (h : LaidOut os (as ++ g :: bs) r)
    (hchanges : r.changes = .switchPad (layout as).length oldPad lookup :: rest)
    (hrun : r.handleSwitchPad (layout as).length oldPad lookup = (true, r')) :
    ∃ gs', Handled os (as ++ g :: bs) r r' (layout as).length
      (switchPad (layout as).length - oldPad) gs' := by
  have hat : At ((as ++ g :: bs).map Block.shape) (layout as).length g.shape :=
    ⟨as.map Block.shape, bs.map Block.shape, by simp, total_shape as⟩
  have hmem : .switchPad (layout as).length oldPad lookup ∈ r.changes :=
    hchanges ▸ List.mem_cons_self
  obtain ⟨σ, hσ, hswitch, hpad, hlookup, hthree⟩ := h.queued.about _ hmem
  obtain rfl := At.unique (positive_shape h.relocated) hσ hat
  have hnot : ¬(isIf g.opcode = true ∧ g.length = 11) := by
    rintro ⟨hif, -⟩
    have hshort := (isShortJump_switch hswitch).1
    simp only [Block.shape, isShortJump, hif, Bool.true_or] at hshort
    cases hshort
  subst hpad hlookup
  have hilen := rcInstrLen_block h hnot fun _ => hmem
  replace hthree : g.pad ≤ 3 := hthree
  simp only [Block.shape] at hrun ⊢
  rw [handleSwitchPad, hilen, Int.toNat_natCast] at hrun
  by_cases hzero : (switchPad (layout as).length : Int) - g.pad = 0
  · rw [if_pos hzero] at hrun
    obtain rfl := (Prod.mk.inj hrun).2
    rw [hzero]
    exact ⟨_, handled_self h hchanges (by omega)⟩
  · rw [if_neg hzero] at hrun
    obtain ⟨hglen, htwo⟩ := switchWords_laidOut h hswitch
    generalize hwords : r.switchWords (layout as).length g.pad (isLookupswitch g.opcode) = words
      at *
    generalize hnewPad : switchPad (layout as).length = newPad at *
    simp only at hrun
    split at hrun
    next => cases (Prod.mk.inj hrun).1
    next r₁ hrelocate =>
      obtain ⟨os₁, o, os₂, as', g', bs', region, slack, rfl, hregion⟩ :=
        relocateCode_region h hnot (by omega) hchanges rfl hrelocate
      obtain ⟨changes, hopened⟩ := hregion.opened
      have hopcode : g'.opcode = g.opcode := congrArg BlockShape.opcode hregion.shape
      have hpad : g'.pad = g.pad := congrArg BlockShape.pad hregion.shape
      have hlength : g'.length = g.length := congrArg BlockShape.length hregion.shape
      have hroom := hregion.length
      obtain ⟨op, p, t, hbytes, hp, -, -, hrepad⟩ :=
        hregion.relocated.repad (hopcode ▸ hswitch)
      rw [Block.length, hbytes, hglen] at hlength
      simp only [List.length_cons, List.length_append] at hlength
      have ht : words * 4 = t.length := by omega
      have hdelta : (newPad : Int) - p.length = newPad - g.pad := by rw [hp, hpad]
      rw [ht, ← hregion.start, ← hpad, ← hp] at hrun
      have hdone : ∀ q : Bytes, q.length = newPad → r' = { r₁ with
          codeArray := layout as' ++ op :: (q ++ t) ++ layout bs' ++ slack } →
          ∃ gs', Handled (os₁ ++ o :: os₂) (as ++ g :: bs) r r' (layout as).length
            (newPad - g.pad) gs' := fun q hq hr' =>
        hregion.handled (hrepad q)
          (by simp only [Block.length, List.length_cons, List.length_append]; omega)
          (fun _ => hq.trans hnewPad.symm) (hr'.trans (by rw [← List.append_assoc]))
      split at hrun
      next hneg =>
        refine hdone (p.take newPad) (by rw [List.length_take]; omega) ?_
        have hcast : (words : Int) * 4 = t.length := by exact_mod_cast ht
        rw [← (Prod.mk.inj hrun).2, ← hopened.padLess hbytes hdelta (hdelta ▸ hneg) (by omega),
          hcast, hdelta]
      next hpos =>
        obtain ⟨q, hq, hcode⟩ := hopened.padMore hbytes hdelta (by omega)
        refine hdone q hq ?_
        rw [← (Prod.mk.inj hrun).2, hcode]

/-! ## Runs -/

theorem handleCodeChange_handled {ci : ChangeItem} {rest : List ChangeItem} (h : LaidOut os gs r)
    (hchanges : r.changes = ci :: rest) (hwiden : ci.isWiden = false)
    (hrun : r.handleCodeChange ci = some (true, r')) :
    ∃ gs', Handled os gs r r' (r.notified ci).1 (r.notified ci).2 gs' := by
  obtain ⟨σ, ⟨σas, σbs, hsplit, htotal⟩, -⟩ := h.queued.about ci (hchanges ▸ List.mem_cons_self)
  obtain ⟨as, gbs, rfl, rfl, hgbs⟩ := List.map_eq_append_iff.mp hsplit
  obtain ⟨g, bs, rfl, rfl, rfl⟩ := List.map_eq_cons_iff.mp hgbs
  rw [total_shape] at htotal
  cases ci with
  | widen => cases hwiden
  | jumpWiden bci newDelta =>
    obtain rfl : (layout as).length = bci := htotal
    obtain ⟨slack, hcode⟩ := h.code
    have hop : r.codeAt (layout as).length = g.opcode := by
      have hcode₁ : r.codeArray = layout as ++ g.bytes ++ (layout bs ++ slack) := by
        rw [hcode]
        simp
      exact codeAt_block hcode₁ (positive_shape h.relocated g.shape (by simp))
    have hhandled := handleJumpWiden_handled h hchanges hrun
    rw [← hop] at hhandled
    exact hhandled
  | switchPad bci padding lookup =>
    obtain rfl : (layout as).length = bci := htotal
    exact handleSwitchPad_handled h hchanges (Option.some.inj hrun)

/-! ## Replacing an instruction -/

theorem new_laidOut {method : ConstMethodOop} (hrel : List.Forall₂ Relocated os gs)
    (hcode : method.code = layout gs) (hlength : method.code.length ≤ maxMethodLength)
    (hpadded : Padded (gs.map Block.shape) id []) :
    ∃ r, new method = some r ∧ LaidOut os gs r ∧ r.changes = [] := by
  have hcodes : LaidOut os gs
      { method, codeArray := method.code, codeArrayLength := method.code.length,
        codeLength := method.code.length, compressedLineNumberTable := none, overwrite := [],
        changes := [] } :=
    ⟨hrel, ⟨[], by rw [List.append_nil, hcode]⟩, by simp only [hcode], rfl, hlength,
      ⟨fun _ hci => absurd hci List.not_mem_nil, List.nodup_nil⟩, hpadded⟩
  rw [new]
  split
  next r' hexpand =>
    obtain ⟨h, hchanges, -⟩ := expandCodeArray_laidOut hcodes hexpand
    exact ⟨r', rfl, h, hchanges⟩
  next hexpand =>
    simp only [expandCodeArray, true_and, if_pos hlength] at hexpand
    split at hexpand <;> cases hexpand

end Relocator

end HotSpot
