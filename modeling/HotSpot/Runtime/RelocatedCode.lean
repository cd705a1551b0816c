import HotSpot.Runtime.RelocatorQueue

/-! # Relocated code

Relocation keeps the code in blocks, one for each instruction that it started with, and each
block is what relocation can make of its instruction.
-/

namespace HotSpot

open ClassFileParser Bytecode Bytecodes

/-! ## Opcodes -/

namespace Bytecodes

theorem lengthFor_shortJump : ∀ opcode < 256, isShortJump opcode = true → lengthFor opcode = 3 := by
  decide +kernel

theorem lengthFor_wideJump : ∀ opcode < 256, isWideJump opcode = true → lengthFor opcode = 5 := by
  decide +kernel

theorem switchPad_le (bci : Nat) : switchPad bci ≤ 3 := by
  rw [switchPad, alignedBcp]
  omega

theorem wideLengthFor_pos (opcode : Nat) (h : 0 < wideLengthFor opcode) :
    4 ≤ wideLengthFor opcode := by
  rw [wideLengthFor] at h ⊢
  split
  next => exact Nat.le_refl 4
  next hlong =>
    rw [if_neg hlong] at h
    split
    next => omega
    next hiinc =>
      rw [if_neg hiinc] at h
      omega

variable {front b rest : Bytes}

/-- The length of an instruction is read off the instruction. -/
theorem lengthAt_block (hpos : 0 < b.length) (hlength : lengthAt b 0 = b.length)
    (hswitch : isSwitch (u1At b 0) = false) :
    lengthAt (front ++ b ++ rest) front.length = b.length := by
  have hop : u1At (front ++ b ++ rest) front.length = u1At b 0 := opcode_block hpos
  rw [lengthAt, hop]
  rw [lengthAt] at hlength
  split at hlength
  next hfixed =>
    rw [if_pos hfixed]
    exact hlength
  next hfixed =>
    rw [if_neg hfixed, specialLengthAt, hop]
    rw [specialLengthAt] at hlength
    split at hlength
    next hwide =>
      have hlen := wideLengthFor_pos (u1At b (0 + 1)) (by omega)
      rw [if_pos hwide, u1At_block (by omega)]
      exact hlength
    next =>
      rw [hswitch] at hlength
      simp only [Bool.false_eq_true, if_false] at hlength
      omega

theorem lengthAt_fixed {n : Nat} (hfor : lengthFor (u1At b 0) = n) (hpos : 0 < n) :
    lengthAt b 0 = n := by
  rw [lengthAt, hfor, if_pos hpos]

end Bytecodes

namespace Relocator

variable {r : Relocator} {front b rest : Bytes} {bci k breakBci : Nat} {delta : Int}

/-! ## Reading and writing a block -/

section Block

variable (hcode : r.codeArray = front ++ b ++ rest)

include hcode

theorem codeAt_block (hpos : 0 < b.length) : r.codeAt front.length = u1At b 0 := by
  rw [codeAt, hcode, opcode_block hpos]

theorem shortAt_block (hk : k + 1 < b.length) :
    r.shortAt (front.length + k) = toShort (u2At b k) := by
  rw [shortAt, hcode, u2At_block hk]

theorem intAtPut_block (hk : k + 4 ≤ b.length) (v : Int) : r.intAtPut (front.length + k) v =
    { r with codeArray := front ++ putBytes b k (intBytes v) ++ rest } := by
  rw [intAtPut, hcode, putBytes_block (by rw [intBytes_length]; exact hk)]

theorem shortAtPut_block (hk : k + 2 ≤ b.length) (v : Int) : r.shortAtPut (front.length + k) v =
    { r with codeArray := front ++ putBytes b k (shortBytes v) ++ rest } := by
  rw [shortAtPut, hcode, putBytes_block (by rw [shortBytes_length]; exact hk)]

/-- A jump that does not cross the break stays as it is. -/
theorem changeJump_short_of_not_cross (hk : k + 1 < b.length)
    (hnot : ¬((bci ≤ breakBci ∧ bci + toShort (u2At b k) > breakBci) ∨
      (bci > breakBci ∧ bci + toShort (u2At b k) ≤ breakBci))) :
    r.changeJump bci (front.length + k) true breakBci delta = r := by
  rw [changeJump]
  simp only [if_true, shortAt_block hcode hk]
  rw [if_neg hnot]

end Block

/-- A jump with an offset of four bytes gets another one at most. -/
theorem changeJump_int (bci breakBci : Nat) (delta : Int) (hcode : r.codeArray = front ++ b ++ rest)
    (hk : k + 4 ≤ b.length) :
    ∃ b', r.changeJump bci (front.length + k) false breakBci delta =
        { r with codeArray := front ++ b' ++ rest } ∧
      (b' = b ∨ ∃ v, b' = putBytes b k (intBytes v)) := by
  rw [changeJump]
  simp only [Bool.false_eq_true, if_false, false_and]
  split
  next =>
    exact ⟨_, intAtPut_block hcode hk _, Or.inr ⟨_, rfl⟩⟩
  next => exact ⟨b, by rw [← hcode], Or.inl rfl⟩

/-- What the visit to one block adds to the queue. -/
def Grows (bci : Nat) (σ : BlockShape) (changes changes' : List ChangeItem) : Prop :=
  changes'.map ChangeItem.forget = changes.map ChangeItem.forget ∨
    ∃ ci, changes' = changes ++ [ci] ∧ ci.isWiden = false ∧
      ci.forget ∉ changes.map ChangeItem.forget ∧ ci.bci = bci ∧ ci.About σ

theorem Grows.refl (bci : Nat) (σ : BlockShape) (changes : List ChangeItem) :
    Grows bci σ changes changes := Or.inl rfl

theorem Grows.queued {σs : List BlockShape} {σ : BlockShape} {changes changes' : List ChangeItem}
    (h : Grows bci σ changes changes') (hq : Queued σs changes) (hat : BlockShape.At σs bci σ) :
    Queued σs changes' := by
  rcases h with heq | ⟨ci, rfl, -, hnew, hbci, habout⟩
  · exact hq.congr heq
  · exact hq.append hnew (hbci ▸ hat) habout

theorem Grows.mem {σ : BlockShape} {changes changes' : List ChangeItem} {padding : Nat}
    {lookup : Bool} {itemBci : Nat} (h : Grows bci σ changes changes')
    (hmem : .switchPad itemBci padding lookup ∈ changes) :
    .switchPad itemBci padding lookup ∈ changes' := by
  rcases h with heq | ⟨ci, rfl, -⟩
  · have hforget : .switchPad itemBci padding lookup ∈ changes'.map ChangeItem.forget := by
      rw [heq]
      exact List.mem_map.mpr ⟨_, hmem, rfl⟩
    obtain ⟨ci, hci, hsame⟩ := List.mem_map.mp hforget
    rwa [ChangeItem.forget_eq_switchPad.mp hsame] at hci
  · exact List.mem_append_left _ hmem

/-- What is in front of the queue stays there. -/
theorem Grows.append {σ : BlockShape} {changes changes' : List ChangeItem}
    (h : Grows bci σ changes changes') :
    ∃ new, changes'.map ChangeItem.forget = changes.map ChangeItem.forget ++ new ∧
      ∀ ci ∈ new, ci.isWiden = false := by
  rcases h with heq | ⟨ci, rfl, hwiden, -⟩
  · exact ⟨[], by rw [heq, List.append_nil], fun _ hci => absurd hci List.not_mem_nil⟩
  · refine ⟨[ci.forget], by rw [List.map_append]; rfl, fun ci' hci' => ?_⟩
    rw [List.mem_singleton.mp hci', ChangeItem.isWiden_forget, hwiden]

/-- A short jump gets another offset, or an item if the offset does not fit. -/
theorem putShort_or_push {op x y : UInt8} (hcode : r.codeArray = front ++ [op, x, y] ++ rest)
    (hjump : isShortJump op.toNat = true) (pad : Nat) (newDelta : Int) :
    ∃ x' y' changes', (if newDelta > maxShort ∨ newDelta < minShort then
          r.pushJumpWiden front.length delta newDelta
        else r.shortAtPut (front.length + 1) newDelta) =
        { r with codeArray := front ++ [op, x', y'] ++ rest, changes := changes' } ∧
      Grows front.length ⟨pad, 3, op.toNat⟩ r.changes changes' := by
  split
  next =>
    refine ⟨x, y, (r.pushJumpWiden front.length delta newDelta).changes, ?_, ?_⟩
    · rw [← hcode]
      rfl
    · rcases r.pushJumpWiden_changes front.length delta newDelta with heq | ⟨heq, hnew⟩
      · exact Or.inl heq
      · exact Or.inr ⟨_, heq, rfl, hnew, rfl, hjump, rfl⟩
  next =>
    exact ⟨_, _, r.changes, shortAtPut_block hcode (k := 1) (by simp) newDelta, Grows.refl _ _ _⟩

theorem changeJump_short {op x y : UInt8} (breakBci : Nat) (delta : Int)
    (hcode : r.codeArray = front ++ [op, x, y] ++ rest)
    (hjump : isShortJump op.toNat = true) (pad : Nat) :
    ∃ x' y' changes', r.changeJump front.length (front.length + 1) true breakBci delta =
        { r with codeArray := front ++ [op, x', y'] ++ rest, changes := changes' } ∧
      Grows front.length ⟨pad, 3, op.toNat⟩ r.changes changes' := by
  rw [changeJump]
  simp only [if_true, true_and]
  generalize (if r.shortAt (front.length + 1) > 0 then r.shortAt (front.length + 1) + delta
    else r.shortAt (front.length + 1) - delta) = newDelta
  split
  next => exact putShort_or_push hcode hjump pad newDelta
  next => exact ⟨x, y, r.changes, by rw [← hcode], Grows.refl _ _ _⟩

/-! ## Visits -/

theorem changeJumpsFrom_step {fuel : Nat} (h : bci < r.codeLength) :
    changeJumpsFrom breakBci delta (fuel + 1) bci r =
      changeJumpsFrom breakBci delta fuel (r.nextBci bci) (r.changeInstr bci breakBci delta) := by
  rw [changeJumpsFrom, if_pos h]

/-- The next instruction follows the bytes of this one. -/
theorem nextBci_block (hcode : r.codeArray = front ++ b ++ rest) (hpos : 0 < b.length)
    (hlength : lengthAt b 0 = b.length) (hswitch : isSwitch (u1At b 0) = false) :
    r.nextBci front.length = front.length + b.length := by
  have hop := codeAt_block hcode hpos
  rw [nextBci, rcInstrLen]
  simp only [hop, hswitch, Bool.false_eq_true, if_false]
  rw [hcode, lengthAt_block hpos hlength hswitch]
  omega

/-- The visit to one block leads to the next one. -/
def Visits (breakBci : Nat) (delta : Int) (r r' : Relocator) (bci bci' : Nat) : Prop :=
  ∃ steps ≤ bci' - bci, ∀ fuel, changeJumpsFrom breakBci delta (steps + fuel) bci r =
    changeJumpsFrom breakBci delta fuel bci' r'

theorem Visits.trans {r' r'' : Relocator} {bci' bci'' : Nat}
    (h : Visits breakBci delta r r' bci bci') (h' : Visits breakBci delta r' r'' bci' bci'')
    (hle : bci ≤ bci') (hle' : bci' ≤ bci'') : Visits breakBci delta r r'' bci bci'' := by
  obtain ⟨n, hn, hrun⟩ := h
  obtain ⟨m, hm, hrun'⟩ := h'
  refine ⟨n + m, by omega, fun fuel => ?_⟩
  rw [Nat.add_assoc, hrun, hrun']

/-- The visit to an instruction that is not a switch. -/
theorem visits_instr (breakBci : Nat) (delta : Int) (hcode : r.codeArray = front ++ b ++ rest)
    (hpos : 0 < b.length)
    (hfit : front.length < r.codeLength) (hlength : lengthAt b 0 = b.length)
    (hswitch : isSwitch (u1At b 0) = false) :
    Visits breakBci delta r (r.changeInstr front.length breakBci delta) front.length
      (front.length + b.length) := by
  refine ⟨1, by omega, fun fuel => ?_⟩
  rw [Nat.add_comm, changeJumpsFrom_step hfit, nextBci_block hcode hpos hlength hswitch]

theorem visits_shortJump {op x y : UInt8} (hcode : r.codeArray = front ++ [op, x, y] ++ rest)
    (hfit : front.length < r.codeLength) (hjump : isShortJump op.toNat = true) :
    Visits breakBci delta r (r.changeJump front.length (front.length + 1) true breakBci delta)
      front.length (front.length + 3) := by
  have hop : r.codeAt front.length = op.toNat := codeAt_block hcode (by simp)
  have hvisit := visits_instr breakBci delta hcode (by simp) hfit
    (lengthAt_fixed (lengthFor_shortJump op.toNat (UInt8.toNat_lt op) hjump) (by simp))
    (isSwitch_shortJump hjump)
  rw [changeInstr] at hvisit
  simp only [hop] at hvisit
  rwa [if_pos hjump] at hvisit

theorem visits_wideJump {op x y z w : UInt8} (breakBci : Nat) (delta : Int)
    (hcode : r.codeArray = front ++ [op, x, y, z, w] ++ rest) (hfit : front.length < r.codeLength)
    (hjump : isWideJump op.toNat = true) :
    ∃ x' y' z' w', Visits breakBci delta r
      { r with codeArray := front ++ [op, x', y', z', w'] ++ rest }
      front.length (front.length + 5) := by
  have hop : r.codeAt front.length = op.toNat := codeAt_block hcode (by simp)
  have hvisit := visits_instr breakBci delta hcode (by simp) hfit
    (lengthAt_fixed (lengthFor_wideJump op.toNat (UInt8.toNat_lt op) hjump) (by simp))
    (isSwitch_wideJump hjump)
  rw [changeInstr] at hvisit
  simp only [hop] at hvisit
  have hshort := isShortJump_wideJump hjump
  rw [hshort, if_neg Bool.false_ne_true, if_pos hjump] at hvisit
  obtain ⟨b', heq, hb'⟩ := changeJump_int front.length breakBci delta hcode
    (k := 1) (by simp)
  rw [heq] at hvisit
  rcases hb' with rfl | ⟨v, rfl⟩
  · exact ⟨x, y, z, w, hvisit⟩
  · exact ⟨_, _, _, _, hvisit⟩

/-! ## Switches -/

section Switch

variable {op : UInt8} {p t : Bytes}

/-- The words of a switch are behind its padding. -/
theorem jintAt_table {w : Nat} (hw : 4 * w + 4 ≤ t.length) :
    jintAt (front ++ op :: (p ++ t) ++ rest) (front.length + 1 + p.length + 4 * w) =
      jintAt t (4 * w) := by
  have hsplit : front ++ op :: (p ++ t) ++ rest = (front ++ op :: p) ++ t ++ rest := by simp
  have hlength : front.length + 1 + p.length = (front ++ op :: p).length := by
    simp only [List.length_append, List.length_cons]
    omega
  rw [hsplit, hlength, jintAt_block (by omega)]

theorem TableLength.length_le {opcode : Nat} (h : TableLength opcode t) :
    if isTableswitch opcode then 12 ≤ t.length else 8 ≤ t.length := by
  rw [TableLength] at h
  split
  next htable =>
    rw [if_pos htable] at h
    obtain ⟨n, -, hlength⟩ := h
    omega
  next htable =>
    rw [if_neg htable] at h
    obtain ⟨n, -, hlength⟩ := h
    omega

theorem switchLength_block (htable : TableLength op.toNat t) :
    switchLength (front ++ op :: (p ++ t) ++ rest) front.length p.length =
      1 + p.length + t.length := by
  have hop : u1At (front ++ op :: (p ++ t) ++ rest) front.length = op.toNat :=
    opcode_block (by simp)
  have hle := TableLength.length_le htable
  rw [switchLength, hop]
  rw [TableLength] at htable
  split
  next hkind =>
    rw [if_pos hkind] at htable hle
    obtain ⟨n, hn, hlength⟩ := htable
    have h1 : jintAt (front ++ op :: (p ++ t) ++ rest) (front.length + 1 + p.length + 4) =
        jintAt t 4 := jintAt_table (w := 1) (by omega)
    have h2 : jintAt (front ++ op :: (p ++ t) ++ rest) (front.length + 1 + p.length + 8) =
        jintAt t 8 := jintAt_table (w := 2) (by omega)
    rw [h1, h2]
    dsimp only
    omega
  next hkind =>
    rw [if_neg hkind] at htable hle
    obtain ⟨n, hn, hlength⟩ := htable
    have h1 : jintAt (front ++ op :: (p ++ t) ++ rest) (front.length + 1 + p.length + 4) =
        jintAt t 4 := jintAt_table (w := 1) (by omega)
    rw [h1]
    dsimp only
    omega

variable (hcode : r.codeArray = front ++ op :: (p ++ t) ++ rest)
  (htable : TableLength op.toNat t)

include hcode htable

theorem mem_switchOffsets {offset : Nat}
    (h : offset ∈ r.switchOffsets front.length p.length) :
    ∃ w, offset = front.length + 1 + p.length + 4 * w ∧ IsOffsetWord op.toNat w ∧
      4 * w + 4 ≤ t.length := by
  have hop : r.codeAt front.length = op.toNat := codeAt_block hcode (by simp)
  have hle := TableLength.length_le htable
  rw [switchOffsets, hop] at h
  rw [TableLength] at htable
  split at h
  next hkind =>
    rw [if_pos hkind] at htable hle
    obtain ⟨n, hn, hlength⟩ := htable
    obtain ⟨k, hk, rfl⟩ := List.mem_map.mp h
    have h1 : r.intAt (front.length + 1 + p.length + 4) = jintAt t 4 := by
      rw [intAt, hcode]
      exact jintAt_table (w := 1) (by omega)
    have h2 : r.intAt (front.length + 1 + p.length + 8) = jintAt t 8 := by
      rw [intAt, hcode]
      exact jintAt_table (w := 2) (by omega)
    rw [List.mem_range, h1, h2] at hk
    exact ⟨k + 3, rfl, Or.inr ⟨by omega, Or.inl hkind⟩, by omega⟩
  next hkind =>
    rw [if_neg hkind] at htable hle
    obtain ⟨n, hn, hlength⟩ := htable
    obtain ⟨k, hk, rfl⟩ := List.mem_map.mp h
    have h1 : r.intAt (front.length + 1 + p.length + 4) = jintAt t 4 := by
      rw [intAt, hcode]
      exact jintAt_table (w := 1) (by omega)
    rw [List.mem_range, h1] at hk
    exact ⟨2 + 2 * k + 1, rfl, Or.inr ⟨by omega, Or.inr (by omega)⟩, by omega⟩

omit htable in
/-- One offset of a switch. -/
theorem changeJump_table (bci breakBci : Nat) (delta : Int) {w : Nat}
    (hw : IsOffsetWord op.toNat w) (hlt : 4 * w + 4 ≤ t.length) :
    ∃ t', r.changeJump bci (front.length + 1 + p.length + 4 * w) false breakBci delta =
        { r with codeArray := front ++ op :: (p ++ t') ++ rest } ∧ SameTable op.toNat t t' := by
  have hsplit : r.codeArray = (front ++ op :: p) ++ t ++ rest := by rw [hcode]; simp
  have hlength : front.length + 1 + p.length = (front ++ op :: p).length := by
    simp only [List.length_append, List.length_cons]
    omega
  obtain ⟨t', heq, ht'⟩ := changeJump_int bci breakBci delta hsplit hlt
  rw [← hlength] at heq
  refine ⟨t', by rw [heq]; simp, ?_⟩
  rcases ht' with rfl | ⟨v, rfl⟩
  · exact SameTable.refl _ _
  · exact SameTable.putOffset hw hlt

omit htable in
theorem changeJump_foldl (bci breakBci : Nat) (delta : Int) (offsets : List Nat)
    (hoffsets : ∀ offset ∈ offsets, ∃ w, offset = front.length + 1 + p.length + 4 * w ∧
      IsOffsetWord op.toNat w ∧ 4 * w + 4 ≤ t.length) :
    ∃ t', offsets.foldl (fun r offset => r.changeJump bci offset false breakBci delta) r =
        { r with codeArray := front ++ op :: (p ++ t') ++ rest } ∧ SameTable op.toNat t t' := by
  induction offsets generalizing r t with
  | nil => exact ⟨t, by rw [List.foldl_nil, ← hcode], SameTable.refl _ _⟩
  | cons offset offsets ih =>
    obtain ⟨w, rfl, hw, hlt⟩ := hoffsets _ List.mem_cons_self
    obtain ⟨t', heq, hsame⟩ := changeJump_table hcode bci breakBci delta hw hlt
    rw [List.foldl_cons, heq]
    obtain ⟨t'', heq', hsame'⟩ := ih (r := { r with
        codeArray := front ++ op :: (p ++ t') ++ rest }) (t := t') rfl fun offset hmem => by
      rw [hsame.length]
      exact hoffsets offset (List.mem_cons_of_mem _ hmem)
    exact ⟨t'', heq', hsame.trans hsame'⟩

/-- The visit to a switch. -/
theorem visits_switch (breakBci : Nat) (delta : Int) (hfit : front.length < r.codeLength)
    (hswitch : isSwitch op.toNat = true)
    (hpad : r.getOrigSwitchPad front.length (isLookupswitch op.toNat) = some p.length ∧
        .switchPad front.length p.length (isLookupswitch op.toNat) ∈ r.changes ∨
      r.getOrigSwitchPad front.length (isLookupswitch op.toNat) = none ∧
        .switchPad front.length p.length (isLookupswitch op.toNat) ∉ r.changes ∧
        p.length = switchPad front.length) :
    ∃ t' changes', Visits breakBci delta r
        { r with codeArray := front ++ op :: (p ++ t') ++ rest, changes := changes' }
        front.length (front.length + (1 + p.length + t.length)) ∧
      SameTable op.toNat t t' ∧
      Grows front.length ⟨p.length, 1 + p.length + t.length, op.toNat⟩ r.changes changes' ∧
      (.switchPad front.length p.length (isLookupswitch op.toNat) ∈ changes' ∨
        p.length = switchPad (ChangeItem.moved breakBci delta front.length)) := by
  have hop : r.codeAt front.length = op.toNat := codeAt_block hcode (by simp)
  have hlt := UInt8.toNat_lt op
  have hold : (r.getOrigSwitchPad front.length (isLookupswitch op.toNat)).getD
      (switchPad front.length) = p.length := by
    rcases hpad with ⟨hsome, -⟩ | ⟨hnone, -, hnominal⟩
    · rw [hsome]
      rfl
    · rw [hnone, hnominal]
      rfl
  have hnext : r.nextBci front.length = front.length + (1 + p.length + t.length) := by
    rw [nextBci, hop, if_pos hswitch, hold, hcode]
    dsimp only
    rw [switchLength_block htable]
    omega
  -- What is queued does not matter for the offsets.
  have hoffsets : ∀ changes', ∃ t', ((({ r with changes := changes' } : Relocator).changeJump
        front.length (front.length + 1 + p.length) false breakBci delta).switchOffsets
          front.length p.length).foldl
        (fun r offset => r.changeJump front.length offset false breakBci delta)
        (({ r with changes := changes' } : Relocator).changeJump front.length
          (front.length + 1 + p.length) false breakBci delta) =
      { r with codeArray := front ++ op :: (p ++ t') ++ rest, changes := changes' } ∧
        SameTable op.toNat t t' := by
    intro changes'
    have hle := TableLength.length_le htable
    obtain ⟨t', heq, hsame⟩ := changeJump_table (r := { r with changes := changes' }) (w := 0)
      hcode front.length breakBci delta (Or.inl rfl) (by split at hle <;> omega)
    rw [Nat.mul_zero, Nat.add_zero] at heq
    rw [heq]
    set s : Relocator := { r with
      codeArray := front ++ op :: (p ++ t') ++ rest, changes := changes' } with hs
    have hscode : s.codeArray = front ++ op :: (p ++ t') ++ rest := rfl
    obtain ⟨t'', heq', hsame'⟩ := changeJump_foldl hscode front.length breakBci delta _
      fun offset hmem => mem_switchOffsets hscode (hsame.tableLength htable) hmem
    exact ⟨t'', heq', hsame.trans hsame'⟩
  have hinstr : r.changeInstr front.length breakBci delta =
      r.changeSwitch front.length breakBci delta := by
    obtain ⟨hshort, hwide⟩ := isShortJump_switch hswitch
    rw [changeInstr, hop, hshort, hwide, if_neg Bool.false_ne_true, if_neg Bool.false_ne_true,
      if_pos hswitch]
  have hvisit : ∀ r', r.changeSwitch front.length breakBci delta = r' →
      Visits breakBci delta r r' front.length (front.length + (1 + p.length + t.length)) := by
    rintro r' rfl
    refine ⟨1, by omega, fun fuel => ?_⟩
    rw [Nat.add_comm, changeJumpsFrom_step hfit, hnext, hinstr]
  rw [changeSwitch, hop, hold] at hvisit
  split at hvisit
  next hpush =>
    obtain ⟨hgt, hne, hnone⟩ := hpush
    obtain ⟨t', heq, hsame⟩ := hoffsets
      (r.changes ++ [.switchPad front.length p.length (isLookupswitch op.toNat)])
    obtain ⟨-, hnot, hnominal⟩ :=
      hpad.resolve_left fun hsome => by rw [hnone] at hsome; cases hsome.1
    refine ⟨t', _, hvisit _ heq, hsame, Or.inr ⟨_, rfl, rfl, fun hmem => hnot ?_, rfl,
      hswitch, rfl, rfl, hnominal ▸ switchPad_le _⟩,
      Or.inl (List.mem_append_right _ (List.mem_singleton_self _))⟩
    obtain ⟨ci, hci, hforget⟩ := List.mem_map.mp hmem
    rwa [ChangeItem.forget_eq_switchPad.mp hforget] at hci
  next hpush =>
    obtain ⟨t', heq, hsame⟩ := hoffsets r.changes
    refine ⟨t', r.changes, hvisit _ heq, hsame, Grows.refl _ _ _, ?_⟩
    rcases hpad with ⟨-, hmem⟩ | ⟨hnone, -, hnominal⟩
    · exact Or.inl hmem
    · refine Or.inr ?_
      rw [ChangeItem.moved]
      split
      next hgt =>
        by_contra hne
        exact hpush ⟨hgt, fun heq => hne heq.symm, hnone⟩
      next => exact hnominal

end Switch

/-! ## Blocks -/

/-- The visit to a block makes of it what relocation can make of its instruction. -/
theorem visits_block {o g : Block} (breakBci : Nat) (delta : Int) (hrel : Relocated o g)
    (hcode : r.codeArray = front ++ g.bytes ++ rest) (hfit : front.length + g.length ≤ r.codeLength)
    (hbreak : breakBci < front.length ∨ front.length + g.length ≤ breakBci ∨
      ¬(isIf g.opcode = true ∧ g.length = 11))
    (hpad : isSwitch g.opcode = true →
      r.getOrigSwitchPad front.length (isLookupswitch g.opcode) = some g.pad ∧
        .switchPad front.length g.pad (isLookupswitch g.opcode) ∈ r.changes ∨
      r.getOrigSwitchPad front.length (isLookupswitch g.opcode) = none ∧
        .switchPad front.length g.pad (isLookupswitch g.opcode) ∉ r.changes ∧
        g.pad = switchPad front.length) :
    ∃ g' changes', Visits breakBci delta r
        { r with codeArray := front ++ g'.bytes ++ rest, changes := changes' }
        front.length (front.length + g.length) ∧
      Relocated o g' ∧ g'.shape = g.shape ∧ Grows front.length g.shape r.changes changes' ∧
      (isSwitch g.opcode = true →
        .switchPad front.length g.pad (isLookupswitch g.opcode) ∈ changes' ∨
          g.pad = switchPad (ChangeItem.moved breakBci delta front.length)) := by
  cases hrel with
  | plain hpos hlength hshort hwide hswitch =>
    have hop : r.codeAt front.length = o.opcode := codeAt_block hcode hpos
    have hvisit := visits_instr breakBci delta hcode hpos (by omega) hlength hswitch
    rw [changeInstr, hop, hshort, hwide, hswitch] at hvisit
    refine ⟨o, r.changes, ?_, .plain hpos hlength hshort hwide hswitch, rfl, Grows.refl _ _ _,
      fun h => absurd (hswitch.symm.trans h) Bool.false_ne_true⟩
    rw [← hcode]
    exact hvisit
  | @shortJump op x y hop ho hjump =>
    obtain ⟨x', y', changes', heq, hgrows⟩ :=
      changeJump_short breakBci delta hcode hjump o.pad
    have hvisit : Visits breakBci delta r _ front.length (front.length + 3) :=
      visits_shortJump hcode (by simp only [Block.length] at hfit; simp at hfit; omega) hjump
    rw [heq] at hvisit
    refine ⟨⟨o.pad, [op, x', y']⟩, changes', hvisit, .shortJump hop ho hjump, rfl, hgrows,
      fun h => absurd h ?_⟩
    exact Bool.not_eq_true _ ▸ isSwitch_shortJump hjump
  | @wideJump op x y z w hop ho hjump =>
    obtain ⟨x', y', z', w', hvisit⟩ := visits_wideJump breakBci delta
      hcode (by simp only [Block.length] at hfit; simp at hfit; omega) hjump
    refine ⟨⟨o.pad, [op, x', y', z', w']⟩, r.changes, hvisit, .wideJump hop ho hjump, rfl,
      Grows.refl _ _ _, fun h => absurd h ?_⟩
    exact Bool.not_eq_true _ ▸ isSwitch_wideJump hjump
  | @widenedGoto x y z w ho hjump =>
    have hwide : isWideJump (if o.opcode = 167 then (200 : UInt8) else 201).toNat = true := by
      split <;> rfl
    obtain ⟨x', y', z', w', hvisit⟩ := visits_wideJump breakBci delta
      hcode (by simp only [Block.length] at hfit; simp at hfit; omega) hwide
    refine ⟨⟨o.pad, [_, x', y', z', w']⟩, r.changes, hvisit, .widenedGoto ho hjump, rfl,
      Grows.refl _ _ _, fun h => absurd h ?_⟩
    exact Bool.not_eq_true _ ▸ isSwitch_wideJump hwide
  | @widenedIf op x y z w hop ho hjump =>
    have hshort : isShortJump op.toNat = true := by rw [isShortJump, hjump, Bool.true_or]
    have hlen : front.length + 11 ≤ r.codeLength := hfit
    have hoff : breakBci < front.length ∨ front.length + 11 ≤ breakBci := by
      rcases hbreak with h | h | h
      · exact Or.inl h
      · exact Or.inr h
      · exact absurd ⟨hjump, rfl⟩ h
    -- The branch over the goto, the goto over the goto_w, and the goto_w.
    have hcode1 : r.codeArray =
        front ++ [op, 0, 6] ++ ([167, 0, 8, 200, x, y, z, w] ++ rest) := by rw [hcode]; simp
    have hcode2 : r.codeArray =
        (front ++ [op, 0, 6]) ++ [167, 0, 8] ++ ([200, x, y, z, w] ++ rest) := by
      rw [hcode]; simp
    have hcode3 : r.codeArray =
        (front ++ [op, 0, 6, 167, 0, 8]) ++ [200, x, y, z, w] ++ rest := by rw [hcode]; simp
    have h1 : Visits breakBci delta r r front.length (front.length + 3) := by
      have hvisit : Visits breakBci delta r _ front.length (front.length + 3) :=
        visits_shortJump hcode1 (by omega) hshort
      have hoffset : toShort (u2At [op, 0, 6] 1) = 6 := by simp [toShort, u2At, u1At]
      rwa [changeJump_short_of_not_cross hcode1 (by simp) (by rw [hoffset]; omega)] at hvisit
    have h2 : Visits breakBci delta r r (front.length + 3) (front.length + 6) := by
      have hlength : (front ++ [op, 0, 6]).length = front.length + 3 := by simp
      have hvisit : Visits breakBci delta r _ (front ++ [op, 0, 6]).length
          ((front ++ [op, 0, 6]).length + 3) :=
        visits_shortJump hcode2 (by rw [hlength]; omega) (by decide +kernel)
      have hoffset : toShort (u2At [167, 0, 8] 1) = 8 := by simp [toShort, u2At, u1At]
      rw [changeJump_short_of_not_cross hcode2 (by simp) (by rw [hoffset, hlength]; omega),
        hlength] at hvisit
      exact hvisit
    have hlength : (front ++ [op, 0, 6, 167, 0, 8]).length = front.length + 6 := by simp
    obtain ⟨x', y', z', w', h3⟩ := visits_wideJump breakBci delta
      hcode3 (by rw [hlength]; omega) (by decide +kernel)
    rw [hlength] at h3
    have hvisit := (h1.trans h2 (by omega) (by omega)).trans h3 (by omega) (by omega)
    refine ⟨⟨o.pad, [op, 0, 6, 167, 0, 8, 200, x', y', z', w']⟩, r.changes, ?_,
      .widenedIf hop ho hjump, rfl, Grows.refl _ _ _, fun h => absurd h ?_⟩
    · simpa [Block.length, Nat.add_assoc] using hvisit
    · exact Bool.not_eq_true _ ▸ isSwitch_shortJump hshort
  | @switch op p t p' t' ho hopad hswitch htable hsame =>
    have hlength : (op :: (p' ++ t')).length = 1 + p'.length + t'.length := by
      simp only [List.length_cons, List.length_append]
      omega
    have hlen : front.length + (op :: (p' ++ t')).length ≤ r.codeLength := hfit
    obtain ⟨t'', changes', hvisit, hsame', hgrows, hpadded⟩ := visits_switch hcode
      (hsame.tableLength htable) breakBci delta (by omega) hswitch (hpad hswitch)
    rw [← hlength] at hvisit hgrows
    refine ⟨⟨p'.length, op :: (p' ++ t'')⟩, changes', hvisit,
      .switch ho hopad hswitch htable (hsame.trans hsame'), ?_, hgrows, fun _ => hpadded⟩
    simp [Block.shape, Block.length, Block.opcode, hsame'.length, u1At]

theorem positive_shape {os gs : List Block} (h : List.Forall₂ Relocated os gs) :
    BlockShape.Positive (gs.map Block.shape) := by
  intro σ hσ
  obtain ⟨g, hg, rfl⟩ := List.mem_map.mp hσ
  clear hσ
  induction h with
  | nil => cases hg
  | cons hrel _ ih =>
    rcases List.mem_cons.mp hg with rfl | hg
    · exact hrel.length_pos
    · exact ih hg

/-! ## Walks -/

/-- Where the blocks are that were visited, and the others. -/
def movedBelow (limit breakBci : Nat) (delta : Int) (bci : Nat) : Nat :=
  if bci < limit then ChangeItem.moved breakBci delta bci else bci

theorem movedBelow_of_lt {limit : Nat} (h : bci < limit) :
    movedBelow limit breakBci delta bci = ChangeItem.moved breakBci delta bci := if_pos h

theorem movedBelow_of_le {limit : Nat} (h : limit ≤ bci) :
    movedBelow limit breakBci delta bci = bci := if_neg (Nat.not_lt.mpr h)

/-- The walk over all blocks: what was visited is padded for where the change moves it. -/
theorem changeJumpsFrom_layout {σs : List BlockShape} {slack : Bytes} {os gs : List Block}
    (hrel : List.Forall₂ Relocated os gs) (hpos : BlockShape.Positive σs)
    (hbreak : ∃ σ, BlockShape.At σs breakBci σ ∧ ¬(isIf σ.opcode = true ∧ σ.length = 11))
    (done : List Block) (fuel : Nat) (hcode : r.codeArray = layout done ++ layout gs ++ slack)
    (hlength : r.codeLength = (layout done ++ layout gs).length)
    (hfuel : (layout gs).length ≤ fuel) (hshape : σs = (done ++ gs).map Block.shape)
    (hqueued : Queued σs r.changes)
    (hpadded : Padded σs (movedBelow (layout done).length breakBci delta) r.changes) :
    ∃ gs' changes', changeJumpsFrom breakBci delta fuel (layout done).length r =
        { r with codeArray := layout done ++ layout gs' ++ slack, changes := changes' } ∧
      List.Forall₂ Relocated os gs' ∧ gs'.map Block.shape = gs.map Block.shape ∧
      Queued σs changes' ∧ Padded σs (ChangeItem.moved breakBci delta) changes' ∧
      ∃ new, changes'.map ChangeItem.forget = r.changes.map ChangeItem.forget ++ new ∧
        ∀ ci ∈ new, ci.isWiden = false := by
  induction hrel generalizing done r fuel with
  | nil =>
    refine ⟨[], r.changes, ?_, .nil, rfl, hqueued, ?_, [],
      (List.append_nil _).symm, fun _ hci => absurd hci List.not_mem_nil⟩
    · have hend : ¬(layout done).length < r.codeLength := by
        rw [hlength, layout_nil, List.append_nil]
        exact Nat.lt_irrefl _
      have hstop : changeJumpsFrom breakBci delta fuel (layout done).length r = r := by
        cases fuel with
        | zero => rfl
        | succ fuel => rw [changeJumpsFrom, if_neg hend]
      rw [hstop, ← hcode]
    · intro bci σ hat hswitch
      have hle := hat.le_total
      have hpos' := hpos σ hat.mem
      rw [hshape, List.append_nil, total_shape] at hle
      have hresult := hpadded bci σ hat hswitch
      rwa [movedBelow_of_lt (by omega)] at hresult
  | @cons o g os gs hrel hrest ih =>
    have hg := hrel.length_pos
    have hat : BlockShape.At σs (layout done).length g.shape :=
      ⟨done.map Block.shape, gs.map Block.shape, by rw [hshape]; simp, total_shape done⟩
    have hfuel' : g.length + (layout gs).length ≤ fuel := by
      rw [layout_cons, List.length_append] at hfuel
      exact hfuel
    have hpad : isSwitch g.opcode = true →
        r.getOrigSwitchPad (layout done).length (isLookupswitch g.opcode) = some g.pad ∧
          .switchPad (layout done).length g.pad (isLookupswitch g.opcode) ∈ r.changes ∨
        r.getOrigSwitchPad (layout done).length (isLookupswitch g.opcode) = none ∧
          .switchPad (layout done).length g.pad (isLookupswitch g.opcode) ∉ r.changes ∧
          g.pad = switchPad (layout done).length := by
      intro hswitch
      obtain ⟨hin, hout⟩ := hqueued.getOrigSwitchPad hpos hat
      have hresult := hpadded _ _ hat hswitch
      rw [movedBelow_of_le (Nat.le_refl _)] at hresult
      by_cases hmem : .switchPad (layout done).length g.pad (isLookupswitch g.opcode) ∈ r.changes
      · exact Or.inl ⟨hin hmem, hmem⟩
      · exact Or.inr ⟨hout hmem, hmem, hresult.resolve_left hmem⟩
    have hoff : breakBci < (layout done).length ∨ (layout done).length + g.length ≤ breakBci ∨
        ¬(isIf g.opcode = true ∧ g.length = 11) := by
      obtain ⟨σ, hσ, hnot⟩ := hbreak
      rcases hσ.eq_or hat with ⟨-, rfl⟩ | hle | hle
      · exact Or.inr (Or.inr hnot)
      · have := hpos σ hσ.mem
        exact Or.inl (by omega)
      · exact Or.inr (Or.inl hle)
    have hcode₁ : r.codeArray = layout done ++ g.bytes ++ (layout gs ++ slack) := by
      rw [hcode]
      simp
    obtain ⟨g', changes', ⟨steps, hsteps, hrun⟩, hrel', hshape', hgrows, hvisited⟩ :=
      visits_block breakBci delta hrel hcode₁ (by rw [hlength]; simp [Block.length]) hoff hpad
    obtain ⟨fuel, rfl⟩ : ∃ n, fuel = steps + n := ⟨fuel - steps, by omega⟩
    have hlen' : g'.length = g.length := congrArg BlockShape.length hshape'
    have hdone : (layout (done ++ [g'])).length = (layout done).length + g.length := by
      rw [layout_append, List.length_append, layout_cons, layout_nil, List.append_nil, ← hlen',
        Block.length]
    have hcode' : layout done ++ g'.bytes ++ (layout gs ++ slack) =
        layout (done ++ [g']) ++ layout gs ++ slack := by simp
    have hpadded' : Padded σs (movedBelow (layout (done ++ [g'])).length breakBci delta)
        changes' := by
      intro bci σ hσ hswitch
      rcases hσ.eq_or hat with ⟨rfl, rfl⟩ | hle | hle
      · rw [movedBelow_of_lt (by omega)]
        exact hvisited hswitch
      · have hpos' := hpos σ hσ.mem
        have hresult := hpadded bci σ hσ hswitch
        rw [movedBelow_of_lt (by omega)] at hresult
        rw [movedBelow_of_lt (by omega)]
        exact hresult.imp_left hgrows.mem
      · have hle' : (layout done).length + g.length ≤ bci := hle
        have hresult := hpadded bci σ hσ hswitch
        rw [movedBelow_of_le (by omega)] at hresult
        rw [movedBelow_of_le (by omega)]
        exact hresult.imp_left hgrows.mem
    rw [hrun, hcode', ← hdone]
    obtain ⟨gs', changes'', heq, hrels, hshapes, hqueued', hpadded'', new, hnew, hwiden⟩ :=
      ih (r := { r with
          codeArray := layout (done ++ [g']) ++ layout gs ++ slack, changes := changes' })
        (done ++ [g']) fuel rfl
        (by simp only [hlength, List.length_append, hdone, layout_cons, Block.length]; omega)
        (by omega) (by rw [hshape]; simp [hshape']) (hgrows.queued hqueued hat) hpadded'
    obtain ⟨new', hnew', hwiden'⟩ := hgrows.append
    refine ⟨g' :: gs', changes'', ?_, .cons hrel' hrels, by simp [hshape', hshapes], hqueued',
      hpadded'', new' ++ new, by rw [hnew, hnew', List.append_assoc], fun ci hci => ?_⟩
    · rw [heq]
      simp
    · exact (List.mem_append.mp hci).elim (hwiden' ci) (hwiden ci)

end Relocator

end HotSpot
