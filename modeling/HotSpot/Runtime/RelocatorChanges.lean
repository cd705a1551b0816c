import HotSpot.Runtime.RelocatedCode

/-! # Code changes

Each change that is handled replaces one block of the code, and what is queued afterwards is
about the blocks of the new code.
-/

namespace HotSpot

open ClassFileParser Bytecode Bytecodes BlockShape

/-- The code array holds relocated blocks, and the queue is about them. -/
structure LaidOut (os gs : List Block) (r : Relocator) : Prop where
  relocated : List.Forall₂ Relocated os gs
  code : ∃ slack, r.codeArray = layout gs ++ slack
  codeLength : r.codeLength = (layout gs).length
  capacity : r.codeArray.length = r.codeArrayLength
  fits : r.codeArrayLength ≤ maxMethodLength
  queued : Queued (gs.map Block.shape) r.changes
  padded : Padded (gs.map Block.shape) id r.changes

namespace Relocator

variable {r : Relocator} {os gs : List Block} {breakBci : Nat} {delta : Int}

/-! ## Room for the new code -/

theorem expandCodeArray_laidOut (h : LaidOut os gs r) {r' : Relocator}
    (hexpand : r.expandCodeArray delta = (true, r')) :
    LaidOut os gs r' ∧ r'.changes = r.changes ∧ r.codeLength + delta ≤ r'.codeArrayLength := by
  obtain ⟨slack, hcode⟩ := h.code
  have hto : ∀ n, r.codeLength ≤ n → n ≤ maxMethodLength →
      LaidOut os gs (expandCodeArray.expandTo r n) := by
    intro n hn hfits
    have htake : r.codeArray.take r.codeLength = layout gs := by
      rw [hcode, h.codeLength, List.take_left]
    refine ⟨h.relocated, ⟨(List.replicate n 0).drop (layout gs).length, ?_⟩, h.codeLength, ?_,
      hfits, h.queued, h.padded⟩
    · simp [expandCodeArray.expandTo, putBytes, htake]
    · rw [expandCodeArray.expandTo]
      simp only [htake]
      rw [putBytes_length (by rw [List.length_replicate, ← h.codeLength]; omega),
        List.length_replicate]
  rw [expandCodeArray] at hexpand
  split at hexpand
  next hlong =>
    split at hexpand
    next hzero =>
      obtain rfl := (Prod.mk.inj hexpand).2
      refine ⟨hto _ hzero.2 (Nat.le_refl _), rfl, ?_⟩
      rw [hzero.1]
      simp only [expandCodeArray.expandTo]
      omega
    next => cases hexpand
  next hfits =>
    obtain rfl := (Prod.mk.inj hexpand).2
    refine ⟨hto _ ?_ (Nat.not_lt.mp hfits), rfl, ?_⟩
    · omega
    · simp only [expandCodeArray.expandTo]
      omega

/-! ## Moving code -/

/-- Related lists split in the same place. -/
theorem forall₂_split {α β : Type} {R : α → β → Prop} {os : List α} {as bs : List β} {g : β}
    (h : List.Forall₂ R os (as ++ g :: bs)) : ∃ os₁ o os₂, os = os₁ ++ o :: os₂ ∧
      List.Forall₂ R os₁ as ∧ R o g ∧ List.Forall₂ R os₂ bs := by
  induction as generalizing os with
  | nil =>
    cases h with
    | cons hrel hrest => exact ⟨[], _, _, rfl, .nil, hrel, hrest⟩
  | cons a as ih =>
    cases h with
    | cons hrel hrest =>
      obtain ⟨os₁, o, os₂, rfl, h₁, ho, h₂⟩ := ih hrest
      exact ⟨_ :: os₁, o, os₂, rfl, .cons hrel h₁, ho, h₂⟩

theorem moveCode_changes (r : Relocator) (bci ilen : Nat) (delta : Int) :
    (r.moveCode bci ilen delta).changes =
      (r.changeJumps bci delta).changes.map (ChangeItem.relocate bci delta) := by
  rw [moveCode, adjustLineNoTable]
  split <;> split <;> rfl

theorem moveCode_codeLength (r : Relocator) (bci ilen : Nat) (delta : Int) :
    (r.moveCode bci ilen delta).codeLength =
      ((r.changeJumps bci delta).codeLength + delta).toNat := by
  rw [moveCode, adjustLineNoTable]
  split <;> split <;> rfl

theorem moveCode_codeArrayLength (r : Relocator) (bci ilen : Nat) (delta : Int) :
    (r.moveCode bci ilen delta).codeArrayLength = (r.changeJumps bci delta).codeArrayLength := by
  rw [moveCode, adjustLineNoTable]
  split <;> split <;> rfl

theorem moveCode_codeArray (r : Relocator) (bci ilen : Nat) (delta : Int) :
    (r.moveCode bci ilen delta).codeArray =
      moveBytes (r.changeJumps bci delta).codeArray (bci + ilen + delta).toNat (bci + ilen)
        ((r.changeJumps bci delta).codeLength - (bci + ilen)) := by
  rw [moveCode, adjustLineNoTable]
  split <;> split <;> rfl

theorem moveCode_overwrite (r : Relocator) (bci ilen : Nat) (h : delta < 0) :
    (r.moveCode bci ilen delta).overwrite =
      ((r.changeJumps bci delta).codeArray.drop
        (bci + ilen + delta).toNat).take (-delta).toNat := by
  rw [moveCode, adjustLineNoTable]
  simp only [if_pos h]
  split <;> rfl

/-- Where the code behind a block goes. What is left of the block keeps its place. -/
theorem moveBytes_block (front bs : Bytes) {g slack : Bytes} {n : Nat}
    (hn : n ≤ g.length + slack.length) :
    ∃ region slack', moveBytes (front ++ g ++ bs ++ slack) (front.length + n)
        (front.length + g.length) bs.length = front ++ region ++ bs ++ slack' ∧
      region.length = n ∧ region.take g.length = g.take n ∧
      (front ++ region ++ bs ++ slack').length = (front ++ g ++ bs ++ slack).length := by
  have hsrc : ((front ++ g ++ bs ++ slack).drop (front.length + g.length)).take bs.length = bs := by
    rw [← List.length_append, List.append_assoc, List.drop_left, List.take_left]
  have htake : (front ++ g ++ bs ++ slack).take (front.length + n) =
      front ++ (g ++ (bs ++ slack)).take n := by
    rw [List.append_assoc, List.append_assoc, List.take_length_add_append]
  refine ⟨(g ++ (bs ++ slack)).take n,
    (front ++ g ++ bs ++ slack).drop (front.length + n + bs.length), ?_, ?_, ?_, ?_⟩
  · rw [moveBytes, hsrc, putBytes, htake]
  · rw [List.length_take, List.length_append, List.length_append]
    omega
  · rw [List.take_take, Nat.min_comm, ← List.take_take, List.take_left]
  · simp only [List.length_append, List.length_take, List.length_drop]
    omega

/-- The code with a region of another length in place of the block `g`. -/
structure Opened (os as : List Block) (g : Block) (bs : List Block) (region slack : Bytes)
    (delta : Int) (changes : List ChangeItem) (r : Relocator) : Prop where
  relocated : List.Forall₂ Relocated os (as ++ g :: bs)
  code : r.codeArray = layout as ++ region ++ layout bs ++ slack
  length : (region.length : Int) = g.length + delta
  kept : region.take g.length = g.bytes.take region.length
  overwrite : delta < 0 → r.overwrite = g.bytes.drop region.length
  codeLength : r.codeLength = (layout as ++ region ++ layout bs).length
  capacity : r.codeArray.length = r.codeArrayLength
  fits : r.codeArrayLength ≤ maxMethodLength
  changes_eq : r.changes = changes.map (ChangeItem.relocate (layout as).length delta)
  queued : Queued ((as ++ g :: bs).map Block.shape) changes
  padded : Padded ((as ++ g :: bs).map Block.shape)
    (ChangeItem.moved (layout as).length delta) changes

theorem layout_length_congr {as as' : List Block} (h : as'.map Block.shape = as.map Block.shape) :
    (layout as').length = (layout as).length := by
  rw [← total_shape, ← total_shape, h]

/-- Changing the jumps keeps the lengths of the blocks, and queues what has to grow. -/
theorem changeJumps_layout {as bs : List Block} {g : Block} (h : LaidOut os (as ++ g :: bs) r)
    (hnot : ¬(isIf g.opcode = true ∧ g.length = 11)) {slack : Bytes}
    (hcode : r.codeArray = layout (as ++ g :: bs) ++ slack) (delta : Int) :
    ∃ gs' changes, r.changeJumps (layout as).length delta =
        { r with codeArray := layout gs' ++ slack, changes := changes } ∧
      List.Forall₂ Relocated os gs' ∧
      gs'.map Block.shape = (as ++ g :: bs).map Block.shape ∧
      Queued ((as ++ g :: bs).map Block.shape) changes ∧
      Padded ((as ++ g :: bs).map Block.shape) (ChangeItem.moved (layout as).length delta)
        changes ∧
      ∃ new, changes.map ChangeItem.forget = r.changes.map ChangeItem.forget ++ new ∧
        ∀ ci ∈ new, ci.isWiden = false := by
  have hat : At ((as ++ g :: bs).map Block.shape) (layout as).length g.shape :=
    ⟨as.map Block.shape, bs.map Block.shape, by simp, total_shape as⟩
  have hpadded : Padded ((as ++ g :: bs).map Block.shape)
      (movedBelow (layout []).length (layout as).length delta) r.changes := by
    intro bci σ hσ hswitch
    rw [layout_nil, List.length_nil, movedBelow_of_le (Nat.zero_le _)]
    exact h.padded bci σ hσ hswitch
  exact changeJumpsFrom_layout h.relocated (positive_shape h.relocated) ⟨_, hat, hnot⟩ []
    r.codeLength hcode h.codeLength (Nat.le_of_eq h.codeLength.symm) rfl h.queued hpadded

/-- Moving the code leaves a region for the block whose length changes. -/
theorem moveCode_opened {as bs : List Block} {g : Block} (h : LaidOut os (as ++ g :: bs) r)
    (hnot : ¬(isIf g.opcode = true ∧ g.length = 11)) (hlength : 0 ≤ g.length + delta)
    (hroom : r.codeLength + delta ≤ r.codeArrayLength) :
    ∃ as' g' bs' region slack changes,
      Opened os as' g' bs' region slack delta changes
        (r.moveCode (layout as).length g.length delta) ∧
      as'.map Block.shape = as.map Block.shape ∧ g'.shape = g.shape ∧
      bs'.map Block.shape = bs.map Block.shape ∧
      ∃ new, changes.map ChangeItem.forget = r.changes.map ChangeItem.forget ++ new ∧
        ∀ ci ∈ new, ci.isWiden = false := by
  obtain ⟨slack, hcode⟩ := h.code
  obtain ⟨gs', changes, heq, hrel, hshapes, hqueued, hpadded', new, hnew, hwiden⟩ :=
    changeJumps_layout h hnot hcode delta
  obtain ⟨as', gbs', has, hgbs, rfl⟩ : ∃ as' gbs', as'.map Block.shape = as.map Block.shape ∧
      gbs'.map Block.shape = (g :: bs).map Block.shape ∧ gs' = as' ++ gbs' := by
    rw [List.map_append] at hshapes
    obtain ⟨l₁, l₂, rfl, h₁, h₂⟩ := List.map_eq_append_iff.mp hshapes
    exact ⟨l₁, l₂, h₁, h₂, rfl⟩
  cases gbs' with
  | nil => cases hgbs
  | cons g' bs' =>
    obtain ⟨hg, hbs⟩ := List.cons.inj hgbs
    have hglen : g'.bytes.length = g.length := congrArg BlockShape.length hg
    have haslen := layout_length_congr has
    have hbslen := layout_length_congr hbs
    set r' := r.moveCode (layout as).length g.length delta with hr'
    have hjumps : r.changeJumps (layout as).length delta =
        { r with
          codeArray := layout as' ++ g'.bytes ++ layout bs' ++ slack, changes := changes } := by
      rw [heq]
      simp
    have htotal : r.codeLength = (layout as).length + g.length + (layout bs).length := by
      rw [h.codeLength]
      simp only [layout_append, layout_cons, List.length_append, Block.length]
      omega
    have hcapacity :
        (layout as' ++ g'.bytes ++ layout bs' ++ slack).length = r.codeArrayLength := by
      rw [← h.capacity, hcode]
      simp only [layout_append, layout_cons, List.length_append, haslen, hbslen, hglen,
        Block.length]
      omega
    obtain ⟨n, hn⟩ : ∃ n : Nat, (n : Int) = g.length + delta := ⟨(g.length + delta).toNat, by omega⟩
    obtain ⟨region, slack', hmove, hregion, hkept, hsame⟩ :=
      moveBytes_block (layout as') (layout bs') (show n ≤ g'.bytes.length + slack.length by
        simp only [List.length_append, haslen, hbslen, hglen] at hcapacity ⊢
        omega)
    have hdst : ((layout as).length + g.length + delta).toNat = (layout as').length + n := by
      rw [haslen]
      omega
    have harray : r'.codeArray = layout as' ++ region ++ layout bs' ++ slack' := by
      rw [hr', moveCode_codeArray, hjumps, ← hmove, hdst, haslen, hglen]
      simp only
      rw [htotal, hbslen]
      congr 1
      omega
    refine ⟨as', g', bs', region, slack', changes, ?_, has, hg, hbs, new, hnew, hwiden⟩
    constructor
    case relocated => exact hrel
    case code => exact harray
    case length =>
      rw [hregion, hn, Block.length, Block.length, hglen]
      rfl
    case kept =>
      rw [hregion]
      exact hkept
    case overwrite =>
      intro hneg
      rw [hr', moveCode_overwrite _ _ _ hneg, hjumps]
      simp only
      rw [hdst, hregion, List.append_assoc, List.append_assoc, List.drop_length_add_append,
        List.drop_append_of_le_length (by omega), List.take_append_of_le_length (by
          rw [List.length_drop]; omega), List.take_of_length_le (by rw [List.length_drop]; omega)]
    case codeLength =>
      rw [hr', moveCode_codeLength, hjumps]
      simp only [List.length_append, haslen, hbslen, hregion]
      omega
    case capacity =>
      rw [harray, hsame, hcapacity, hr', moveCode_codeArrayLength, hjumps]
    case fits =>
      rw [hr', moveCode_codeArrayLength, hjumps]
      exact h.fits
    case changes_eq => rw [hr', moveCode_changes, hjumps, haslen]
    case queued =>
      rw [List.map_append, has, hgbs, ← List.map_append]
      exact hqueued
    case padded =>
      rw [List.map_append, has, hgbs, ← List.map_append, haslen]
      exact hpadded'

theorem relocateCode_opened {as bs : List Block} {g : Block} {r' : Relocator}
    (h : LaidOut os (as ++ g :: bs) r) (hnot : ¬(isIf g.opcode = true ∧ g.length = 11))
    (hlength : 0 ≤ g.length + delta)
    (hrelocate : r.relocateCode (layout as).length g.length delta = (true, r')) :
    ∃ as' g' bs' region slack changes, Opened os as' g' bs' region slack delta changes r' ∧
      as'.map Block.shape = as.map Block.shape ∧ g'.shape = g.shape ∧
      bs'.map Block.shape = bs.map Block.shape ∧
      ∃ new, changes.map ChangeItem.forget = r.changes.map ChangeItem.forget ++ new ∧
        ∀ ci ∈ new, ci.isWiden = false := by
  rw [relocateCode] at hrelocate
  split at hrelocate
  next =>
    split at hrelocate
    next r₁ hexpand =>
      obtain rfl := (Prod.mk.inj hrelocate).2
      obtain ⟨h₁, hchanges, hroom⟩ := expandCodeArray_laidOut h hexpand
      have hsame : r₁.codeLength = r.codeLength := by rw [h₁.codeLength, h.codeLength]
      have hopened := moveCode_opened h₁ hnot hlength (by rw [hsame]; exact hroom)
      rwa [hchanges] at hopened
    next => cases (Prod.mk.inj hrelocate).1
  next hroom =>
    obtain rfl := (Prod.mk.inj hrelocate).2
    obtain ⟨slack, hcode⟩ := h.code
    have hle : r.codeLength ≤ r.codeArrayLength := by
      rw [← h.capacity, hcode, h.codeLength, List.length_append]
      exact Nat.le_add_right _ _
    exact moveCode_opened h hnot hlength (by omega)

/-- Filling the region with a block, and dropping the change that was handled. -/
theorem Opened.close {as bs : List Block} {g g' : Block} {region slack : Bytes}
    {changes : List ChangeItem} {r' : Relocator} {os' : List Block}
    (h : Opened os as g bs region slack delta changes r) {key : ChangeItem}
    {keys : List ChangeItem} (hkeys : changes.map ChangeItem.forget = key :: keys)
    (hbci : key.bci = (layout as).length)
    (hrel : List.Forall₂ Relocated os' (as ++ g' :: bs)) (hlength : g'.length = region.length)
    (hpad : isSwitch g'.opcode = true → g'.pad = switchPad (layout as).length)
    (hcode : r'.codeArray = layout as ++ g'.bytes ++ layout bs ++ slack)
    (hcodeLength : r'.codeLength = r.codeLength)
    (hcapacity : r'.codeArrayLength = r.codeArrayLength)
    (hchanges : r'.changes = r.changes.tail) : LaidOut os' (as ++ g' :: bs) r' := by
  obtain ⟨ci, rest, rfl, hci, -⟩ := List.map_eq_cons_iff.mp hkeys
  have hci' : ci.bci = total (as.map Block.shape) := by
    rw [total_shape, ← hbci, ← hci, ChangeItem.forget_bci]
  have hpos := positive_shape h.relocated
  have hpos' := positive_shape hrel
  have hlen : (g'.shape.length : Int) = g.shape.length + delta := by
    change (g'.length : Int) = g.length + delta
    rw [hlength, h.length]
  have hg : 0 < g.shape.length := hpos _ (by simp)
  have hg' : 0 < g'.shape.length := hpos' _ (by simp)
  have hrest : r'.changes =
      rest.map (ChangeItem.relocate (total (as.map Block.shape)) delta) := by
    rw [hchanges, h.changes_eq, total_shape]
    rfl
  have hqueued := h.queued
  have hpadded := h.padded
  rw [List.map_append, List.map_cons] at hpos hpos' hqueued hpadded
  rw [← total_shape] at hpadded hpad
  constructor
  case relocated => exact hrel
  case code => exact ⟨slack, by rw [hcode]; simp⟩
  case codeLength =>
    rw [hcodeLength, h.codeLength]
    simp only [layout_append, layout_cons, List.length_append, ← hlength, Block.length]
    omega
  case capacity =>
    rw [hcapacity, ← h.capacity, hcode, h.code]
    simp only [List.length_append, ← hlength, Block.length]
  case fits =>
    rw [hcapacity]
    exact h.fits
  case queued =>
    rw [List.map_append, List.map_cons, hrest]
    exact hqueued.resize hpos hci' hg' hlen
  case padded =>
    rw [List.map_append, List.map_cons, hrest]
    exact hpadded.resize hpos' hci' hg hlen hpad

end Relocator

end HotSpot
