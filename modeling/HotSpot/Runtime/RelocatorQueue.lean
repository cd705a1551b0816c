import HotSpot.Runtime.Relocator
import Mathlib

/-! # The queue of code changes

Each change that is queued is about a block of the code: a jump that is not widened yet, or a
switch, with its padding. A switch without an entry in the queue is aligned.
-/

/-! ## Code in blocks

The bytes of a method as a list of blocks, one for each instruction, and what reading,
writing and moving bytes does to one block.
-/

namespace HotSpot

open ClassFileParser

/-! ## Opcodes -/

namespace Bytecodes

variable {opcode : Nat}

theorem isSwitch_shortJump (h : isShortJump opcode = true) : isSwitch opcode = false := by
  simp only [isShortJump, isIf, isGoto, Bool.or_eq_true, decide_eq_true_eq] at h
  simp only [isSwitch, isTableswitch, isLookupswitch, Bool.or_eq_false_iff,
    decide_eq_false_iff_not]
  omega

theorem isSwitch_wideJump (h : isWideJump opcode = true) : isSwitch opcode = false := by
  simp only [isWideJump, decide_eq_true_eq] at h
  simp only [isSwitch, isTableswitch, isLookupswitch, Bool.or_eq_false_iff,
    decide_eq_false_iff_not]
  omega

theorem isShortJump_wideJump (h : isWideJump opcode = true) : isShortJump opcode = false := by
  simp only [isWideJump, decide_eq_true_eq] at h
  simp only [isShortJump, isIf, isGoto, Bool.or_eq_false_iff, decide_eq_false_iff_not]
  omega

theorem isShortJump_switch (h : isSwitch opcode = true) :
    isShortJump opcode = false ∧ isWideJump opcode = false := by
  simp only [isSwitch, isTableswitch, isLookupswitch, Bool.or_eq_true, decide_eq_true_eq] at h
  simp only [isShortJump, isIf, isGoto, isWideJump, Bool.or_eq_false_iff, decide_eq_false_iff_not]
  omega

end Bytecodes

namespace Bytecode

variable {front b rest : Bytes} {i k : Nat}

/-! ## Reading -/

theorem getD_block (h : k < b.length) :
    (front ++ b ++ rest).getD (front.length + k) 0 = b.getD k 0 := by
  rw [List.append_assoc, List.getD_append_right _ _ _ _ (by omega), Nat.add_sub_cancel_left,
    List.getD_append _ _ _ _ h]

theorem u1At_block (h : k < b.length) :
    u1At (front ++ b ++ rest) (front.length + k) = u1At b k := by
  rw [u1At, u1At, getD_block h]

theorem opcode_block (h : 0 < b.length) : u1At (front ++ b ++ rest) front.length = u1At b 0 :=
  u1At_block h

theorem u2At_block (h : k + 1 < b.length) :
    u2At (front ++ b ++ rest) (front.length + k) = u2At b k := by
  rw [u2At, u2At, Nat.add_assoc, u1At_block (by omega), u1At_block h]

theorem u4At_block (h : k + 3 < b.length) :
    u4At (front ++ b ++ rest) (front.length + k) = u4At b k := by
  rw [u4At, u4At, Nat.add_assoc, u2At_block (by omega), u2At_block (by omega)]

theorem jintAt_block (h : k + 3 < b.length) :
    jintAt (front ++ b ++ rest) (front.length + k) = jintAt b k := by
  rw [jintAt, jintAt, u4At_block h]

end Bytecode

/-! ## Writing -/

open Bytecode

section Writing

variable {front b rest bytes : Bytes} {i k n : Nat}

theorem putBytes_length (h : i + bytes.length ≤ b.length) :
    (putBytes b i bytes).length = b.length := by
  simp only [putBytes, List.length_append, List.length_take, List.length_drop]
  omega

theorem putBytes_block (h : k + bytes.length ≤ b.length) :
    putBytes (front ++ b ++ rest) (front.length + k) bytes =
      front ++ putBytes b k bytes ++ rest := by
  simp only [putBytes, List.append_assoc, List.take_length_add_append, Nat.add_assoc,
    List.drop_length_add_append]
  rw [List.take_append_of_le_length (by omega), List.drop_append_of_le_length h]

theorem putBytes_all (h : bytes.length = b.length) : putBytes b 0 bytes = bytes := by
  simp [putBytes, h]

theorem getD_putBytes (h : k < i ∨ i + bytes.length ≤ k) (hi : i + bytes.length ≤ b.length) :
    (putBytes b i bytes).getD k 0 = b.getD k 0 := by
  simp only [putBytes, List.getD_eq_getElem?_getD, List.append_assoc]
  rcases h with hlt | hle
  · rw [List.getElem?_append_left (by rw [List.length_take]; omega), List.getElem?_take_of_lt hlt]
  · rw [List.getElem?_append_right (by rw [List.length_take]; omega),
      List.getElem?_append_right (by rw [List.length_take]; omega), List.getElem?_drop,
      List.length_take, Nat.min_eq_left (by omega)]
    congr 2
    omega

@[simp] theorem shortBytes_length (v : Int) : (shortBytes v).length = 2 := rfl

@[simp] theorem intBytes_length (v : Int) : (intBytes v).length = 4 := rfl

end Writing

/-! ## Blocks -/

open Bytecodes

/-- The bytes of one instruction. For a switch, the padding is a part of it. -/
structure Block where
  pad : Nat
  bytes : Bytes
  deriving DecidableEq, Repr

namespace Block

def opcode (g : Block) : Nat := u1At g.bytes 0

def length (g : Block) : Nat := g.bytes.length

end Block

/-- The bytes of a list of blocks. -/
def layout (gs : List Block) : Bytes := gs.flatMap Block.bytes

@[simp] theorem layout_nil : layout [] = [] := rfl

@[simp] theorem layout_cons (g : Block) (gs : List Block) :
    layout (g :: gs) = g.bytes ++ layout gs := rfl

@[simp] theorem layout_append (as bs : List Block) :
    layout (as ++ bs) = layout as ++ layout bs := by
  simp [layout]

/-- The words of a switch behind the padding that hold an offset. -/
def IsOffsetWord (opcode w : Nat) : Prop :=
  w = 0 ∨ 3 ≤ w ∧ (isTableswitch opcode = true ∨ w % 2 = 1)

/-- The words of a switch behind the padding are as many as it says. -/
def TableLength (opcode : Nat) (t : Bytes) : Prop :=
  if isTableswitch opcode then
    ∃ n : Nat, jintAt t 8 - jintAt t 4 + 1 = n ∧ t.length = 4 * (3 + n)
  else ∃ n : Nat, jintAt t 4 = n ∧ t.length = 4 * (2 + 2 * n)

/-- Two switches that differ in their offsets at most. -/
structure SameTable (opcode : Nat) (t t' : Bytes) : Prop where
  length : t'.length = t.length
  words : ∀ i, ¬IsOffsetWord opcode (i / 4) → t'.getD i 0 = t.getD i 0

namespace SameTable

variable {opcode : Nat} {t t' t'' : Bytes}

theorem refl (opcode : Nat) (t : Bytes) : SameTable opcode t t := ⟨rfl, fun _ _ => rfl⟩

theorem trans (h : SameTable opcode t t') (h' : SameTable opcode t' t'') :
    SameTable opcode t t'' :=
  ⟨h'.length.trans h.length, fun i hi => (h'.words i hi).trans (h.words i hi)⟩

/-- The words that are read of a switch are no offsets. -/
theorem jintAt (h : SameTable opcode t t') {w : Nat} (hw : ¬IsOffsetWord opcode w) :
    jintAt t' (4 * w) = jintAt t (4 * w) := by
  have hbyte : ∀ j < 4, u1At t' (4 * w + j) = u1At t (4 * w + j) := fun j hj => by
    have hword : (4 * w + j) / 4 = w := by omega
    rw [u1At, u1At, h.words _ (by rw [hword]; exact hw)]
  have h0 := hbyte 0 (by omega)
  have h1 := hbyte 1 (by omega)
  have h2 := hbyte 2 (by omega)
  have h3 := hbyte 3 (by omega)
  simp only [Bytecode.jintAt, u4At, u2At, Nat.add_assoc, Nat.add_zero, Nat.reduceAdd] at *
  rw [h0, h1, h2, h3]

theorem tableLength (h : SameTable opcode t t') (ht : TableLength opcode t) :
    TableLength opcode t' := by
  have h1 := h.jintAt (w := 1) (by rintro (h | h) <;> omega)
  rw [TableLength] at ht ⊢
  split
  next htable =>
    have h2 := h.jintAt (w := 2) (by rintro (h | h) <;> omega)
    rw [if_pos htable] at ht
    rw [h.length, h1, h2]
    exact ht
  next htable =>
    rw [if_neg htable] at ht
    rw [h.length, h1]
    exact ht

/-- Writing an offset. -/
theorem putOffset {w : Nat} {v : Int} (hw : IsOffsetWord opcode w) (hlt : 4 * w + 4 ≤ t.length) :
    SameTable opcode t (putBytes t (4 * w) (intBytes v)) := by
  refine ⟨putBytes_length (by rw [intBytes_length]; exact hlt), fun i hi => ?_⟩
  refine getD_putBytes ?_ (by rw [intBytes_length]; exact hlt)
  by_contra hin
  rw [intBytes_length] at hin
  have hword : i / 4 = w := by omega
  exact hi (hword ▸ hw)

end SameTable

/-! ## Relocated instructions -/

/-- What relocation can make of an instruction: the offsets of jumps change, a short jump is
widened, a switch has another padding, and nothing else. -/
inductive Relocated (o : Block) : Block → Prop where
  | plain (hpos : 0 < o.length) (hlength : lengthAt o.bytes 0 = o.length)
      (hshort : isShortJump o.opcode = false) (hwide : isWideJump o.opcode = false)
      (hswitch : isSwitch o.opcode = false) : Relocated o o
  | shortJump {op x y : UInt8} (hop : o.opcode = op.toNat) (ho : o.length = 3)
      (hjump : isShortJump op.toNat = true) : Relocated o ⟨o.pad, [op, x, y]⟩
  | wideJump {op x y z w : UInt8} (hop : o.opcode = op.toNat) (ho : o.length = 5)
      (hjump : isWideJump op.toNat = true) : Relocated o ⟨o.pad, [op, x, y, z, w]⟩
  | widenedGoto {x y z w : UInt8} (ho : o.length = 3) (hjump : isGoto o.opcode = true) :
      Relocated o ⟨o.pad, [if o.opcode = 167 then 200 else 201, x, y, z, w]⟩
  /-- The branch goes to the last of the three instructions. -/
  | widenedIf {op x y z w : UInt8} (hop : o.opcode = op.toNat) (ho : o.length = 3)
      (hjump : isIf op.toNat = true) :
      Relocated o ⟨o.pad, [op, 0, 6, 167, 0, 8, 200, x, y, z, w]⟩
  | switch {op : UInt8} {p t p' t' : Bytes} (ho : o.bytes = op :: (p ++ t))
      (hpad : p.length = o.pad)
      (hswitch : isSwitch op.toNat = true) (htable : TableLength op.toNat t)
      (hsame : SameTable op.toNat t t') : Relocated o ⟨p'.length, op :: (p' ++ t')⟩

theorem Relocated.length_pos {o g : Block} (h : Relocated o g) : 0 < g.length := by
  cases h with
  | plain hpos => exact hpos
  | shortJump | wideJump | widenedGoto | widenedIf | switch => exact Nat.succ_pos _

/-! ## Shapes -/

/-- What the queue depends on of a block. -/
structure BlockShape where
  pad : Nat
  length : Nat
  opcode : Nat

def Block.shape (g : Block) : BlockShape := ⟨g.pad, g.length, g.opcode⟩

namespace BlockShape

variable {σs τs : List BlockShape} {σ τ : BlockShape} {bci : Nat}

/-- Where a list of blocks ends. -/
def total (σs : List BlockShape) : Nat := (σs.map BlockShape.length).sum

@[simp] theorem total_nil : total [] = 0 := rfl

@[simp] theorem total_cons (σ : BlockShape) (σs : List BlockShape) :
    total (σ :: σs) = σ.length + total σs := by simp [total]

@[simp] theorem total_append (σs τs : List BlockShape) :
    total (σs ++ τs) = total σs + total τs := by simp [total]

/-- A block of this shape starts at a bci. -/
def At (σs : List BlockShape) (bci : Nat) (σ : BlockShape) : Prop :=
  ∃ as bs, σs = as ++ σ :: bs ∧ total as = bci

def Positive (σs : List BlockShape) : Prop := ∀ σ ∈ σs, 0 < σ.length

/-- Two blocks of a list do not overlap. -/
theorem At.eq_or (hσ : At σs bci σ) {bci' : Nat} (hτ : At σs bci' τ) :
    (bci = bci' ∧ σ = τ) ∨ bci + σ.length ≤ bci' ∨ bci' + τ.length ≤ bci := by
  obtain ⟨as, bs, rfl, rfl⟩ := hσ
  obtain ⟨as', bs', heq, rfl⟩ := hτ
  rcases List.append_eq_append_iff.mp heq with ⟨c, rfl, hc⟩ | ⟨c, rfl, hc⟩
  · cases c with
    | nil =>
      obtain ⟨rfl, rfl⟩ := List.cons.inj hc
      exact Or.inl ⟨by simp, rfl⟩
    | cons x c =>
      obtain ⟨rfl, -⟩ := List.cons.inj hc
      refine Or.inr (Or.inl ?_)
      rw [total_append, total_cons]
      omega
  · cases c with
    | nil =>
      obtain ⟨rfl, rfl⟩ := List.cons.inj hc
      exact Or.inl ⟨by simp, rfl⟩
    | cons x c =>
      obtain ⟨rfl, -⟩ := List.cons.inj hc
      refine Or.inr (Or.inr ?_)
      rw [total_append, total_cons]
      omega

theorem At.mem (h : At σs bci σ) : σ ∈ σs := by
  obtain ⟨as, bs, rfl, -⟩ := h
  simp

theorem At.unique (hpos : Positive σs) (hσ : At σs bci σ) (hτ : At σs bci τ) : σ = τ := by
  have hσ' := hpos σ hσ.mem
  have hτ' := hpos τ hτ.mem
  rcases hσ.eq_or hτ with ⟨-, heq⟩ | hle | hle
  · exact heq
  · omega
  · omega

theorem At.le_total (h : At σs bci σ) : bci + σ.length ≤ total σs := by
  obtain ⟨as, bs, rfl, rfl⟩ := h
  rw [total_append, total_cons]
  omega

end BlockShape

theorem total_shape (gs : List Block) :
    BlockShape.total (gs.map Block.shape) = (layout gs).length := by
  induction gs with
  | nil => rfl
  | cons g gs ih =>
    rw [List.map_cons, BlockShape.total_cons, ih, layout_cons, List.length_append]
    rfl

/-! ## Items -/

namespace ChangeItem

/-- The kind of an item and what it is about, without the change itself. -/
def forget : ChangeItem → ChangeItem
  | widen bci _ _ => widen bci 0 []
  | jumpWiden bci _ => jumpWiden bci 0
  | ci => ci

def isWiden : ChangeItem → Bool
  | widen _ _ _ => true
  | _ => false

/-- What a change is about. -/
def About (σ : BlockShape) : ChangeItem → Prop
  | widen _ _ _ => isShortJump σ.opcode = false ∧ isSwitch σ.opcode = false
  | jumpWiden _ _ => isShortJump σ.opcode = true ∧ σ.length = 3
  | switchPad _ padding lookup =>
    isSwitch σ.opcode = true ∧ padding = σ.pad ∧ lookup = isLookupswitch σ.opcode ∧ padding ≤ 3

@[simp] theorem forget_bci (ci : ChangeItem) : ci.forget.bci = ci.bci := by
  cases ci <;> rfl

@[simp] theorem isWiden_forget (ci : ChangeItem) : ci.forget.isWiden = ci.isWiden := by
  cases ci <;> rfl

@[simp] theorem about_forget {σ : BlockShape} {ci : ChangeItem} :
    ci.forget.About σ ↔ ci.About σ := by
  cases ci <;> rfl

theorem forget_eq_switchPad {ci : ChangeItem} {bci padding : Nat} {lookup : Bool} :
    ci.forget = switchPad bci padding lookup ↔ ci = switchPad bci padding lookup := by
  cases ci <;> simp [forget]

theorem forget_eq_jumpWiden {ci : ChangeItem} {bci : Nat} :
    ci.forget = jumpWiden bci 0 ↔ ∃ delta, ci = jumpWiden bci delta := by
  cases ci <;> simp [forget]

end ChangeItem

/-- The queue for blocks of these shapes. -/
structure Queued (σs : List BlockShape) (changes : List ChangeItem) : Prop where
  about : ∀ ci ∈ changes, ∃ σ, BlockShape.At σs ci.bci σ ∧ ci.About σ
  nodup : (changes.map ChangeItem.forget).Nodup

/-- The padding of each switch is in the queue, or right for where `f` says that it is. -/
def Padded (σs : List BlockShape) (f : Nat → Nat) (changes : List ChangeItem) : Prop :=
  ∀ bci σ, BlockShape.At σs bci σ → isSwitch σ.opcode = true →
    .switchPad bci σ.pad (isLookupswitch σ.opcode) ∈ changes ∨ σ.pad = switchPad (f bci)

namespace Queued

variable {σs : List BlockShape} {changes changes' : List ChangeItem} {σ : BlockShape} {bci : Nat}

/-- The queue depends on what its items are about. -/
theorem congr (h : Queued σs changes)
    (heq : changes'.map ChangeItem.forget = changes.map ChangeItem.forget) :
    Queued σs changes' := by
  refine ⟨fun ci hci => ?_, heq ▸ h.nodup⟩
  have hmem : ci.forget ∈ changes.map ChangeItem.forget := heq ▸ List.mem_map_of_mem hci
  obtain ⟨ci', hci', hforget⟩ := List.mem_map.mp hmem
  obtain ⟨σ, hat, habout⟩ := h.about ci' hci'
  rw [← ChangeItem.forget_bci, ← ChangeItem.about_forget, hforget, ChangeItem.forget_bci,
    ChangeItem.about_forget] at *
  exact ⟨σ, hat, habout⟩

theorem append (h : Queued σs changes) {ci : ChangeItem}
    (hnew : ci.forget ∉ changes.map ChangeItem.forget) (hat : BlockShape.At σs ci.bci σ)
    (habout : ci.About σ) : Queued σs (changes ++ [ci]) := by
  constructor
  · intro ci' hci'
    rcases List.mem_append.mp hci' with hci' | hci'
    · exact h.about ci' hci'
    · rw [List.mem_singleton.mp hci']
      exact ⟨σ, hat, habout⟩
  · rw [List.map_append]
    refine List.nodup_append.mpr ⟨h.nodup, List.nodup_singleton _, ?_⟩
    intro a ha b hb
    rw [List.mem_singleton.mp hb]
    rintro rfl
    exact hnew ha

/-- What the queue says of the padding of a switch. -/
theorem getOrigSwitchPad {r : Relocator} (h : Queued σs r.changes)
    (hpos : BlockShape.Positive σs) (hat : BlockShape.At σs bci σ) :
    (.switchPad bci σ.pad (isLookupswitch σ.opcode) ∈ r.changes →
      r.getOrigSwitchPad bci (isLookupswitch σ.opcode) = some σ.pad) ∧
    (.switchPad bci σ.pad (isLookupswitch σ.opcode) ∉ r.changes →
      r.getOrigSwitchPad bci (isLookupswitch σ.opcode) = none) := by
  have hsome : ∀ pad, r.getOrigSwitchPad bci (isLookupswitch σ.opcode) = some pad →
      pad = σ.pad ∧ .switchPad bci σ.pad (isLookupswitch σ.opcode) ∈ r.changes := by
    intro pad hpad
    obtain ⟨ci, hci, hfound⟩ := List.exists_of_findSome?_eq_some hpad
    cases ci with
    | widen => cases hfound
    | jumpWiden => cases hfound
    | switchPad itemBci padding lookup =>
      simp only [Option.ite_none_right_eq_some, Option.some.injEq] at hfound
      obtain ⟨⟨rfl, rfl⟩, rfl⟩ := hfound
      obtain ⟨τ, hτ, -, hpadding, -⟩ := h.about _ hci
      obtain rfl := BlockShape.At.unique hpos hτ hat
      exact ⟨hpadding, hpadding ▸ hci⟩
  constructor
  · intro hmem
    cases hpad : r.getOrigSwitchPad bci (isLookupswitch σ.opcode) with
    | none =>
      have hfound := List.findSome?_eq_none_iff.mp hpad _ hmem
      simp at hfound
    | some pad => rw [(hsome pad hpad).1]
  · intro hnot
    cases hpad : r.getOrigSwitchPad bci (isLookupswitch σ.opcode) with
    | none => rfl
    | some pad => exact absurd (hsome pad hpad).2 hnot

end Queued

/-! ## Pending jumps -/

namespace Relocator

theorem adjustFirst_some {bci : Nat} {delta : Int} {changes changes' : List ChangeItem}
    (h : adjustFirst bci delta changes = some changes') :
    changes'.map ChangeItem.forget = changes.map ChangeItem.forget := by
  induction changes generalizing changes' with
  | nil => cases h
  | cons ci rest ih =>
    rw [adjustFirst] at h
    split at h
    next ci' hadjust =>
      obtain rfl := Option.some.inj h
      cases ci with
      | jumpWiden itemBci d =>
        simp only [ChangeItem.adjust, Option.ite_none_right_eq_some, Option.some.injEq] at hadjust
        obtain ⟨-, rfl⟩ := hadjust
        rfl
      | widen => cases hadjust
      | switchPad => cases hadjust
    next =>
      obtain ⟨rest', hrest, rfl⟩ := Option.map_eq_some_iff.mp h
      rw [List.map_cons, List.map_cons, ih hrest]

theorem adjustFirst_none {bci : Nat} {delta : Int} {changes : List ChangeItem}
    (h : adjustFirst bci delta changes = none) :
    .jumpWiden bci 0 ∉ changes.map ChangeItem.forget := by
  induction changes with
  | nil => exact List.not_mem_nil
  | cons ci rest ih =>
    rw [adjustFirst] at h
    split at h
    next => cases h
    next hadjust =>
      rw [List.map_cons, List.mem_cons, not_or]
      refine ⟨fun heq => ?_, ih (Option.map_eq_none_iff.mp h)⟩
      obtain ⟨d, rfl⟩ := ChangeItem.forget_eq_jumpWiden.mp heq.symm
      simp [ChangeItem.adjust] at hadjust

/-- A jump that does not fit gets an item, if it has none. -/
theorem pushJumpWiden_changes (r : Relocator) (bci : Nat) (delta newDelta : Int) :
    (r.pushJumpWiden bci delta newDelta).changes.map ChangeItem.forget =
        r.changes.map ChangeItem.forget ∨
      (r.pushJumpWiden bci delta newDelta).changes = r.changes ++ [.jumpWiden bci newDelta] ∧
        .jumpWiden bci 0 ∉ r.changes.map ChangeItem.forget := by
  rw [pushJumpWiden]
  cases h : adjustFirst bci delta r.changes with
  | none => exact Or.inr ⟨rfl, adjustFirst_none h⟩
  | some changes => exact Or.inl (adjustFirst_some h)

end Relocator

/-! ## A block of another length -/

namespace ChangeItem

@[simp] theorem relocate_bci (breakBci : Nat) (delta : Int) (ci : ChangeItem) :
    (ci.relocate breakBci delta).bci = moved breakBci delta ci.bci := by
  cases ci <;> rfl

@[simp] theorem about_relocate {breakBci : Nat} {delta : Int} {σ : BlockShape} {ci : ChangeItem} :
    (ci.relocate breakBci delta).About σ ↔ ci.About σ := by
  cases ci <;> rfl

@[simp] theorem isWiden_relocate (breakBci : Nat) (delta : Int) (ci : ChangeItem) :
    (ci.relocate breakBci delta).isWiden = ci.isWiden := by
  cases ci <;> rfl

theorem relocate_switchPad (breakBci : Nat) (delta : Int) (bci padding : Nat) (lookup : Bool) :
    (switchPad bci padding lookup).relocate breakBci delta =
      switchPad (moved breakBci delta bci) padding lookup := rfl

/-- Two changes about one block are of the same kind. -/
theorem About.forget_eq {σ : BlockShape} {ci ci' : ChangeItem} (h : ci.About σ)
    (h' : ci'.About σ) (hbci : ci.bci = ci'.bci) : ci.forget = ci'.forget := by
  cases ci <;> cases ci' <;> simp_all [About, forget, ChangeItem.bci]
  · have := isSwitch_shortJump h.1
    simp_all
  · have := isSwitch_shortJump h'.1
    simp_all

end ChangeItem

namespace BlockShape

variable {σas σbs : List BlockShape} {σ σ' τ : BlockShape} {bci : Nat} {delta : Int}

/-- The other blocks follow a change of one block. -/
theorem At.resize (h : At (σas ++ σ :: σbs) bci τ) (hne : bci ≠ total σas)
    (hlength : (σ'.length : Int) = σ.length + delta) :
    At (σas ++ σ' :: σbs) (ChangeItem.moved (total σas) delta bci) τ := by
  obtain ⟨as, bs, heq, rfl⟩ := h
  rw [ChangeItem.moved]
  rcases List.append_eq_append_iff.mp heq with ⟨c, rfl, hc⟩ | ⟨c, rfl, hc⟩
  · cases c with
    | nil => exact absurd (by simp) hne
    | cons x c =>
      obtain ⟨rfl, rfl⟩ := List.cons.inj hc
      rw [total_append, total_cons] at hne ⊢
      rw [if_pos (by omega)]
      refine ⟨σas ++ σ' :: c, bs, by simp, ?_⟩
      rw [total_append, total_cons]
      omega
  · cases c with
    | nil => exact absurd (by simp) hne
    | cons x c =>
      obtain ⟨rfl, rfl⟩ := List.cons.inj hc
      rw [total_append, total_cons] at hne ⊢
      rw [if_neg (by omega)]
      exact ⟨as, c ++ σ' :: σbs, by simp, rfl⟩

/-- Each block of the new list comes from one of the old list, or is the changed one. -/
theorem At.of_resize (h : At (σas ++ σ' :: σbs) bci τ) (hpos : 0 < σ.length) (hτ : 0 < τ.length)
    (hlength : (σ'.length : Int) = σ.length + delta) :
    (bci = total σas ∧ τ = σ') ∨ ∃ bci', At (σas ++ σ :: σbs) bci' τ ∧ bci' ≠ total σas ∧
      ChangeItem.moved (total σas) delta bci' = bci := by
  obtain ⟨as, bs, heq, rfl⟩ := h
  rcases List.append_eq_append_iff.mp heq with ⟨c, rfl, hc⟩ | ⟨c, rfl, hc⟩
  · cases c with
    | nil =>
      obtain ⟨rfl, rfl⟩ := List.cons.inj hc
      exact Or.inl ⟨by simp, rfl⟩
    | cons x c =>
      obtain ⟨rfl, rfl⟩ := List.cons.inj hc
      refine Or.inr ⟨total (σas ++ σ :: c), ⟨σas ++ σ :: c, bs, by simp, rfl⟩, ?_, ?_⟩
      · rw [total_append, total_cons]
        omega
      · rw [ChangeItem.moved, total_append, total_cons, total_append, total_cons,
          if_pos (by omega)]
        omega
  · cases c with
    | nil =>
      obtain ⟨rfl, rfl⟩ := List.cons.inj hc
      exact Or.inl ⟨by simp, rfl⟩
    | cons x c =>
      obtain ⟨rfl, rfl⟩ := List.cons.inj hc
      refine Or.inr ⟨total as, ⟨as, c ++ σ :: σbs, by simp, rfl⟩, ?_, ?_⟩
      · rw [total_append, total_cons]
        omega
      · rw [ChangeItem.moved, total_append, total_cons, if_neg (by omega)]

end BlockShape

section Resize

open BlockShape

variable {σas σbs : List BlockShape} {σ σ' : BlockShape} {delta : Int} {ci : ChangeItem}
  {rest : List ChangeItem}

theorem Queued.tail {σs : List BlockShape} (h : Queued σs (ci :: rest)) : Queued σs rest :=
  ⟨fun ci' hci' => h.about ci' (List.mem_cons_of_mem _ hci'), (List.nodup_cons.mp h.nodup).2⟩

/-- The other changes are about other blocks. -/
theorem Queued.bci_ne {σs : List BlockShape} (h : Queued σs (ci :: rest)) (hpos : Positive σs)
    {ci' : ChangeItem} (hci' : ci' ∈ rest) : ci'.bci ≠ ci.bci := by
  intro heq
  obtain ⟨σ, hσ, habout⟩ := h.about ci List.mem_cons_self
  obtain ⟨τ, hτ, habout'⟩ := h.about ci' (List.mem_cons_of_mem _ hci')
  rw [heq] at hτ
  obtain rfl := At.unique hpos hσ hτ
  have hnodup := (List.nodup_cons.mp h.nodup).1
  rw [← habout'.forget_eq habout heq] at hnodup
  exact hnodup (List.mem_map_of_mem hci')

/-- The changes that remain follow the one that is handled. -/
theorem Queued.resize (h : Queued (σas ++ σ :: σbs) (ci :: rest))
    (hpos : Positive (σas ++ σ :: σbs)) (hbci : ci.bci = total σas) (hσ' : 0 < σ'.length)
    (hlength : (σ'.length : Int) = σ.length + delta) :
    Queued (σas ++ σ' :: σbs) (rest.map (ChangeItem.relocate (total σas) delta)) := by
  have hne : ∀ ci' ∈ rest, ci'.bci ≠ total σas := fun ci' hci' => hbci ▸ h.bci_ne hpos hci'
  have hself : At (σas ++ σ :: σbs) (total σas) σ := ⟨σas, σbs, rfl, rfl⟩
  constructor
  · intro ci' hci'
    obtain ⟨ci, hci, rfl⟩ := List.mem_map.mp hci'
    obtain ⟨τ, hτ, habout⟩ := h.tail.about ci hci
    refine ⟨τ, ?_, ChangeItem.about_relocate.mpr habout⟩
    rw [ChangeItem.relocate_bci]
    exact hτ.resize (hne ci hci) hlength
  · rw [List.map_map]
    refine List.Nodup.map_on ?_ (List.Nodup.of_map _ h.tail.nodup)
    intro ci hci ci' hci' heq
    have hmoved := congrArg ChangeItem.bci heq
    simp only [Function.comp_apply, ChangeItem.forget_bci, ChangeItem.relocate_bci,
      ChangeItem.moved] at hmoved
    obtain ⟨τ, hτ, habout⟩ := h.tail.about ci hci
    obtain ⟨τ', hτ', habout'⟩ := h.tail.about ci' hci'
    have hci0 := hne ci hci
    have hci0' := hne ci' hci'
    have hor := hτ.eq_or hself
    have hor' := hτ'.eq_or hself
    have hbcis : ci.bci = ci'.bci := by split at hmoved <;> split at hmoved <;> omega
    rw [hbcis] at hτ
    obtain rfl := At.unique hpos hτ hτ'
    exact List.inj_on_of_nodup_map h.tail.nodup hci hci' (habout.forget_eq habout' hbcis)

theorem Padded.resize (h : Padded (σas ++ σ :: σbs) (ChangeItem.moved (total σas) delta)
      (ci :: rest)) (hpos : Positive (σas ++ σ' :: σbs)) (hbci : ci.bci = total σas)
    (hσ : 0 < σ.length) (hlength : (σ'.length : Int) = σ.length + delta)
    (hpad : isSwitch σ'.opcode = true → σ'.pad = switchPad (total σas)) :
    Padded (σas ++ σ' :: σbs) id (rest.map (ChangeItem.relocate (total σas) delta)) := by
  intro bci τ hτ hswitch
  rcases hτ.of_resize hσ (hpos τ hτ.mem) hlength with ⟨rfl, rfl⟩ | ⟨bci', hat, hne, rfl⟩
  · exact Or.inr (hpad hswitch)
  · refine (h bci' τ hat hswitch).imp_left fun hmem => ?_
    rcases List.mem_cons.mp hmem with rfl | hmem
    · exact absurd hbci hne
    · rw [← ChangeItem.relocate_switchPad]
      exact List.mem_map_of_mem hmem

end Resize

end HotSpot
