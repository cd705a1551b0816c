import HotSpot.Runtime.RelocatedTables

/-! # Refused changes

A change that is refused changes nothing itself, but the changes in front of it have been made,
and each of them has adjusted the tables of the old method in place. The change is refused when
the array cannot be expanded, which asks for the code that is needed or for the code and its slop,
whatever is longer.
-/

namespace HotSpot

open Bytecode Bytecodes Relocator

/-! ## Bcis of tables -/

def exceptionTableBcis : List Int → List Nat
  | start :: stop :: handler :: _ :: rest =>
    start.toNat :: stop.toNat :: handler.toNat :: exceptionTableBcis rest
  | _ => []

def localVarBcis (e : LocalVariableTableElement) : List Nat :=
  [e.startBci, e.startBci + e.length]

/-- The bcis that the tables refer to. -/
def tableBcis (method : ConstMethodOop) : List Nat :=
  exceptionTableBcis method.exceptionTable ++ method.localVariableTable.flatMap localVarBcis

section Fixed

variable {gs : List Block} {f : Nat → Nat} {table : List Int}

theorem ExceptionTableIn.map_eq_iff (h : ExceptionTableIn gs table) :
    mapExceptionTable f table = table ↔ ∀ bci ∈ exceptionTableBcis table, f bci = bci := by
  induction h with
  | nil => exact iff_of_true rfl fun bci hbci => absurd hbci List.not_mem_nil
  | cons hij hj hk hrest ih =>
    simp only [mapExceptionTable, exceptionTableBcis, List.cons.injEq, Int.toNat_natCast,
      Int.natCast_inj, true_and, List.forall_mem_cons, ih]

theorem mapLocalVar_eq_iff {e : LocalVariableTableElement} :
    mapLocalVar f e = e ↔ ∀ bci ∈ localVarBcis e, f bci = bci := by
  obtain ⟨start, length, name, descriptor, signature, slot⟩ := e
  simp only [mapLocalVar, localVarBcis, LocalVariableTableElement.mk.injEq, and_true,
    List.forall_mem_cons, List.not_mem_nil, false_implies, implies_true]
  refine and_congr_right fun hstart => ?_
  rw [hstart]
  -- An empty range has one bci, and that of its start is fixed.
  rcases Nat.eq_zero_or_pos length with rfl | hpos
  · exact iff_of_true (by rw [Nat.add_zero, hstart, Nat.sub_self]) hstart
  · omega

/-- The tables stay the same exactly if all their bcis do. -/
theorem TablesIn.map_eq_iff {method : ConstMethodOop} (h : TablesIn gs method) :
    ((mapTables f method).exceptionTable = method.exceptionTable ∧
      (mapTables f method).localVariableTable = method.localVariableTable) ↔
      ∀ bci ∈ tableBcis method, f bci = bci := by
  have hlocal : method.localVariableTable.map (mapLocalVar f) = method.localVariableTable ↔
      ∀ bci ∈ method.localVariableTable.flatMap localVarBcis, f bci = bci := by
    conv_lhs => rhs; rw [← List.map_id method.localVariableTable]
    rw [List.map_inj_left]
    constructor
    · intro hall bci hbci
      obtain ⟨e, he, hmem⟩ := List.mem_flatMap.mp hbci
      exact mapLocalVar_eq_iff.mp (hall e he) bci hmem
    · exact fun hall e he => mapLocalVar_eq_iff.mpr fun bci hbci =>
        hall bci (List.mem_flatMap.mpr ⟨e, he, hbci⟩)
  rw [tableBcis, List.forall_mem_append, ← h.exceptionTable.map_eq_iff, ← hlocal]
  rfl

end Fixed

/-! ## Runs that fail -/

namespace Relocator

variable {r r' : Relocator} {fuel : Nat}

/-- The method is as it was, and the change that is refused makes its code too long. -/
structure FailsCleanly (method : ConstMethodOop) (r : Relocator) : Prop where
  code_eq : r.method.code = method.code
  exceptionTable : r.method.exceptionTable = method.exceptionTable
  localVariableTable : r.method.localVariableTable = method.localVariableTable
  tooLong : ∀ ci ∈ r.changes.head?, maxMethodLength < r.codeLength + (r.notified ci).2

/-- The code outgrows its array and still fits, but its slop does not. -/
def SlopTooLong (r : Relocator) (delta : Int) : Prop :=
  r.codeArrayLength < r.codeLength + delta ∧ r.codeLength + delta ≤ maxMethodLength ∧
    maxMethodLength < r.codeLength * 125 / 100

/-- What is refused is too long, or has a slop that is. -/
theorem Refuses.tooLong_iff {delta : Int} (h : r.Refuses delta) :
    maxMethodLength < r.codeLength + delta ↔ ¬r.SlopTooLong delta := by
  obtain ⟨hpos, hroom, hlong⟩ := h
  rw [SlopTooLong]
  omega

/-- A run that fails does so cleanly exactly if the changes in front of the refused one leave the
bcis of the tables where they are, on the whole, and it is not refused for the slop. -/
theorem insertSpaceAt_failsCleanly_iff {method : ConstMethodOop} {as bs : List Block} {g : Block}
    {buf : ClassFileParser.Bytes} (h : Insertion method as g bs buf)
    (hin : TablesIn (as ++ g :: bs) method) (hnew : new method = some r)
    (hrun : r.insertSpaceAt fuel (layout as).length buf.length buf = some (none, r')) :
    FailsCleanly method r' ↔ (∀ bci ∈ tableBcis method,
        movedAll (relocations fuel (r.requested (layout as).length buf)) bci = bci) ∧
      ∀ ci ∈ r'.changes.head?, ¬r'.SlopTooLong (r'.notified ci).2 := by
  obtain ⟨hmethod, -⟩ := new_eq hnew
  obtain ⟨⟨gs', hblocks⟩, ci, rest, hchanges, hrefused⟩ := h.failed hnew hrun
  have hin₀ : TablesIn (as ++ g :: bs) (r.requested (layout as).length buf).method :=
    hmethod ▸ hin
  obtain ⟨htables, -⟩ := hblocks.tables hin₀
  have htables' : r'.method =
      mapTables (movedAll (relocations fuel (r.requested (layout as).length buf))) method :=
    htables.trans (congrArg _ hmethod)
  obtain ⟨-, hrefuses⟩ := handleCodeChange_refused hrefused
  rw [← hin.map_eq_iff, ← htables', hchanges, List.head?_cons]
  constructor
  · rintro ⟨-, hexception, hlocal, htooLong⟩
    refine ⟨⟨hexception, hlocal⟩, fun ci' hci' => ?_⟩
    obtain rfl := Option.some.inj hci'
    exact hrefuses.tooLong_iff.mp (htooLong ci (hchanges ▸ rfl))
  · rintro ⟨⟨hexception, hlocal⟩, hslop⟩
    refine ⟨by rw [htables']; rfl, hexception, hlocal, fun ci' hci' => ?_⟩
    rw [hchanges] at hci'
    obtain rfl := Option.some.inj hci'
    exact hrefuses.tooLong_iff.mpr (hslop ci rfl)

/-- The array of a long method is as long as code may be. -/
theorem new_long {method : ConstMethodOop}
    (hlong : maxMethodLength < method.code.length * 125 / 100)
    (hlength : method.code.length ≤ maxMethodLength) (hnew : new method = some r) :
    r.codeArrayLength = maxMethodLength := by
  rw [new, expandCodeArray] at hnew
  rw [if_pos (Nat.lt_of_lt_of_le hlong (Nat.le_max_right _ _)), if_pos ⟨rfl, hlength⟩] at hnew
  obtain rfl := Option.some.inj hnew
  rfl

/-! ## A switch that cannot be padded -/

/-- A tableswitch with 16379 offsets. -/
def fullTable : ClassFileParser.Bytes :=
  [0, 0, 255, 250, 0, 0, 0, 0, 0, 0, 63, 250] ++ (List.replicate 16379 [0, 0, 255, 250]).flatten

def fullBlocks : List Block := [⟨0, [0]⟩, ⟨0, 170 :: fullTable⟩, ⟨0, [0]⟩, ⟨0, [177]⟩]

/-- A method that has room for one byte more. Its switch is aligned, and would not be at 4. -/
def fullMethod : ConstMethodOop where
  code := layout (⟨0, [18, 1]⟩ :: fullBlocks)
  nameIndex := 0
  signatureIndex := 0
  genericSignatureIndex := 0
  checkedExceptions := []
  exceptionTable := [0, 65534, 65533, 0]
  lineNumberTable := none
  localVariableTable := []
  stackmapData := none

theorem fullTable_length : fullTable.length = 65528 := by
  rw [fullTable, List.length_append, List.length_flatten, List.map_replicate,
    List.sum_replicate_nat]
  simp only [List.length_cons, List.length_nil]

/-- Where the instructions behind the switch start, and where they end. -/
theorem startOf_fullBlocks :
    startOf (⟨0, [18, 1]⟩ :: fullBlocks) 3 = 65532 ∧
      startOf (⟨0, [18, 1]⟩ :: fullBlocks) 4 = 65533 ∧
      startOf (⟨0, [18, 1]⟩ :: fullBlocks) 5 = 65534 := by
  -- The table is a variable here, so that no check of a proof unfolds it.
  have hstart (table : ClassFileParser.Bytes) (htable : table.length = 65528) :
      let blocks : List Block :=
        [⟨0, [18, 1]⟩, ⟨0, [0]⟩, ⟨0, 170 :: table⟩, ⟨0, [0]⟩, ⟨0, [177]⟩]
      startOf blocks 3 = 65532 ∧ startOf blocks 4 = 65533 ∧ startOf blocks 5 = 65534 := by
    simp only [startOf, List.take_succ_cons, List.take_zero, layout_cons, layout_nil,
      List.length_append, List.length_cons, List.length_nil, htable, and_self]
  exact hstart fullTable fullTable_length

theorem fullMethod_length : fullMethod.code.length = 65534 := startOf_fullBlocks.2.2

theorem insertion_fullMethod :
    Insertion fullMethod [] ⟨0, [18, 1]⟩ fullBlocks [19, 1, 0] where
  method := by
    have hswitch : Block.Instruction ⟨0, 170 :: fullTable⟩ :=
      ⟨List.length_pos_of_ne_nil (List.cons_ne_nil _ _), fun h => (by cases h),
        fun _ => ⟨170, [], fullTable, by rw [List.nil_append], rfl, 16379, by decide,
          fullTable_length⟩⟩
    refine ⟨fun o ho => ?_, aligned_of_get (by decide), rfl, by
      rw [fullMethod_length]; decide⟩
    simp only [fullBlocks, List.mem_cons, List.not_mem_nil, or_false, List.nil_append] at ho
    rcases ho with rfl | rfl | rfl | rfl | rfl
    · exact .of_plain rfl rfl (by decide)
    · exact .of_plain rfl rfl (by decide)
    · exact hswitch
    · exact .of_plain rfl rfl (by decide)
    · exact .of_plain rfl rfl (by decide)
  jump := rfl
  switch := rfl
  inserted := .of_plain rfl rfl (by decide)
  insertedSwitch := rfl
  overwrite := by decide

/-- The blocks behind the request, with a padding of the switch. -/
theorem blocks_of_relocated {gs : List Block}
    (h : List.Forall₂ Relocated (⟨0, [19, 1, 0]⟩ :: fullBlocks) gs) : ∃ p t, t.length = 65528 ∧
      gs = [⟨0, [19, 1, 0]⟩, ⟨0, [0]⟩, ⟨p.length, 170 :: (p ++ t)⟩, ⟨0, [0]⟩, ⟨0, [177]⟩] := by
  rw [fullBlocks] at h
  obtain ⟨_, _, hldc, h₁, rfl⟩ := List.forall₂_cons_left_iff.mp h
  obtain ⟨_, _, hnop, h₂, rfl⟩ := List.forall₂_cons_left_iff.mp h₁
  obtain ⟨_, _, hswitch, h₃, rfl⟩ := List.forall₂_cons_left_iff.mp h₂
  obtain ⟨_, _, hnop', h₄, rfl⟩ := List.forall₂_cons_left_iff.mp h₃
  obtain ⟨_, _, hreturn, h₅, rfl⟩ := List.forall₂_cons_left_iff.mp h₄
  obtain rfl := List.forall₂_nil_left_iff.mp h₅
  obtain rfl := hldc.eq_of_plain rfl rfl rfl
  obtain rfl := hnop.eq_of_plain rfl rfl rfl
  obtain rfl := hnop'.eq_of_plain rfl rfl rfl
  obtain rfl := hreturn.eq_of_plain rfl rfl rfl
  cases hswitch with
  | plain _ _ _ _ hnot => cases hnot
  | shortJump hop _ hjump =>
    rw [← hop] at hjump
    cases hjump
  | wideJump hop _ hjump =>
    rw [← hop] at hjump
    cases hjump
  | widenedGoto _ hjump => cases hjump
  | widenedIf hop _ hjump =>
    rw [← hop] at hjump
    cases hjump
  | @switch op p t p' t' ho hpad _ _ hsame =>
    obtain ⟨rfl, htable⟩ := List.cons.inj ho
    obtain rfl := List.length_eq_zero_iff.mp hpad
    refine ⟨p', t', ?_, rfl⟩
    rw [hsame.length, ← List.nil_append t, ← htable, fullTable_length]

/-- A change behind the request can only be about the switch. -/
theorem eq_switchPad_of_mem {os : List Block} {p t : ClassFileParser.Bytes}
    (hlaid : LaidOut os
      [⟨0, [19, 1, 0]⟩, ⟨0, [0]⟩, ⟨p.length, 170 :: (p ++ t)⟩, ⟨0, [0]⟩, ⟨0, [177]⟩] r)
    {ci : ChangeItem} (hci : ci ∈ r.changes) (hwiden : ci.isWiden = false) :
    ci = .switchPad 4 p.length false := by
  obtain ⟨as, g, bs, -, hsplit, hbci, habout, -⟩ := hlaid.block_of_mem hci
  have hopcode : isShortJump g.opcode = true ∨ isSwitch g.opcode = true := by
    cases ci with
    | widen => cases hwiden
    | jumpWiden => exact Or.inl habout.1
    | switchPad => exact Or.inr habout.1
  rcases as with _ | ⟨a, _ | ⟨b, _ | ⟨c, _ | ⟨d, _ | ⟨e, as⟩⟩⟩⟩⟩ <;>
    simp only [List.nil_append, List.cons_append, List.cons.injEq, List.nil_eq,
      List.append_eq_nil_iff, reduceCtorEq, and_false] at hsplit
  case nil => exact absurd hopcode (by rw [← hsplit.1]; decide)
  case cons.nil => exact absurd hopcode (by rw [← hsplit.2.1]; decide)
  case cons.cons.nil =>
    obtain ⟨rfl, rfl, rfl, -⟩ := hsplit
    cases ci with
    | widen => cases hwiden
    | jumpWiden => cases habout.1
    | switchPad bci padding lookup =>
      obtain ⟨-, rfl, rfl, -⟩ := habout
      obtain rfl : 4 = bci := hbci
      rfl
  case cons.cons.cons.nil => exact absurd hopcode (by rw [← hsplit.2.2.2.1]; decide)
  case cons.cons.cons.cons.nil => exact absurd hopcode (by rw [← hsplit.2.2.2.2.1]; decide)

/-- The request is made, as there is room for it. -/
theorem handleCodeChange_fullMethod (hnew : new fullMethod = some r) :
    ∃ r₁, (r.requested 0 [19, 1, 0]).handleCodeChange (.widen 0 3 [19, 1, 0]) =
      some (true, r₁) := by
  have hlength : r.codeLength = 65534 := (new_eq hnew).2.2.trans fullMethod_length
  have hcapacity : r.codeArrayLength = 65535 := new_long
    (by rw [fullMethod_length]; decide) (by rw [fullMethod_length]; decide) hnew
  cases hchange : (r.requested 0 [19, 1, 0]).handleCodeChange (.widen 0 3 [19, 1, 0]) with
  | none =>
    rw [handleCodeChange] at hchange
    cases hchange
  | some result =>
    obtain ⟨made, r₁⟩ := result
    cases made with
    | true => exact ⟨r₁, rfl⟩
    | false =>
      obtain ⟨-, hroom⟩ := (handleCodeChange_refused hchange).2
      have hdelta : ((r.requested 0 [19, 1, 0]).notified (.widen 0 3 [19, 1, 0])).2 = 1 :=
        congrArg Prod.snd (insertion_fullMethod.notified hnew)
      rw [hdelta] at hroom
      have hneeded : (r.codeArrayLength : Int) < r.codeLength + 1 := hroom.1
      omega

/-- The switch has to be padded, and there is no room for the padding. -/
theorem handleCodeChange_switch {os : List Block} {p t : ClassFileParser.Bytes}
    (hlaid : LaidOut os
      [⟨0, [19, 1, 0]⟩, ⟨0, [0]⟩, ⟨p.length, 170 :: (p ++ t)⟩, ⟨0, [0]⟩, ⟨0, [177]⟩] r)
    (hpad : p.length = 0) (ht : t.length = 65528)
    (hwiden : ∀ ci ∈ r.changes, ci.isWiden = false) :
    ∃ ci rest, r.changes = ci :: rest ∧ r.handleCodeChange ci = some (false, r) := by
  have hlength : r.codeLength = 65535 := by
    rw [hlaid.codeLength]
    simp only [layout_cons, layout_nil, List.length_append, List.length_cons, List.length_nil, ht,
      hpad]
  have hmem : .switchPad 4 p.length false ∈ r.changes := by
    have hat : BlockShape.At _ 4 (Block.shape ⟨p.length, 170 :: (p ++ t)⟩) :=
      ⟨[⟨0, 3, 19⟩, ⟨0, 1, 0⟩], [⟨0, 1, 0⟩, ⟨0, 1, 177⟩], rfl, rfl⟩
    refine (hlaid.padded 4 _ hat rfl).resolve_right fun haligned => ?_
    cases hpad.symm.trans haligned
  obtain ⟨ci, rest, hchanges⟩ := List.exists_cons_of_ne_nil (List.ne_nil_of_mem hmem)
  have hci : ci ∈ r.changes := hchanges ▸ List.mem_cons_self
  obtain rfl := eq_switchPad_of_mem hlaid hci (hwiden ci hci)
  have hdelta : (r.notified (.switchPad 4 p.length false)).2 = 3 := by
    rw [hpad]
    rfl
  have hfits := hlaid.fits
  rw [maxMethodLength] at hfits
  refine ⟨_, rest, hchanges, handleCodeChange_of_refuses ?_ fun hjump => by cases hjump⟩
  rw [hdelta, Refuses, maxMethodLength]
  omega

theorem insertSpaceAt_fullMethod : ∃ r r', new fullMethod = some r ∧
    r.insertSpaceAt 2 0 3 [19, 1, 0] = some (none, r') ∧
    r'.method.exceptionTable = [0, 65535, 65534, 0] := by
  obtain ⟨r, hnew, -⟩ := exists_new insertion_fullMethod.method
  obtain ⟨r₁, hchange⟩ := handleCodeChange_fullMethod hnew
  have hnotified : (r.requested 0 [19, 1, 0]).notified (.widen 0 3 [19, 1, 0]) = (0, 1) :=
    insertion_fullMethod.notified hnew
  obtain ⟨gs₁, hhandled⟩ := insertion_fullMethod.handled hnew hchange
  have hlaid := hhandled.laidOut
  obtain ⟨p, t, ht, rfl⟩ := blocks_of_relocated hlaid.relocated
  have hpad : p.length = 0 := by
    have hstart := (hhandled.starts 3).trans (congrArg
      (fun delta => ChangeItem.moved 0 delta _) (congrArg Prod.snd hnotified))
    rw [List.nil_append, startOf_fullBlocks.1] at hstart
    simp only [startOf, List.take_succ_cons, List.take_zero, layout_cons, layout_nil,
      List.length_append, List.length_cons, List.length_nil, ht] at hstart
    replace hstart : 0 + 1 + 1 + 1 + (0 + 1 + (p.length + 65528 + 1 + 0)) = 65533 := hstart
    omega
  obtain ⟨ci, rest, hchanges, hrefused⟩ :=
    handleCodeChange_switch hlaid hpad ht (Insertion.not_isWiden hhandled)
  have hruns : handleCodeChanges 2 (r.requested 0 [19, 1, 0]) =
      some (false, { r₁ with changes := r₁.changes.tail }) :=
    (handleCodeChanges_made rfl hchange).trans (handleCodeChanges_refused hchanges hrefused)
  refine ⟨r, { r₁ with changes := r₁.changes.tail }, hnew, ?_, ?_⟩
  · rw [insertSpaceAt, show handleCodeChanges 2
      { r with changes := [.widen 0 3 [19, 1, 0]] } = _ from hruns]
  · rcases handleCodeChange_relocation hchange with ⟨-, hrelocation⟩ | ⟨hstays, -⟩
    · have hmethod : r₁.method = adjustTables 0 1 fullMethod := by
        rw [hrelocation.method, hnotified]
        exact congrArg _ (new_eq hnew).1
      rw [hmethod]
      rfl
    · cases hstays

theorem tablesIn_fullMethod : TablesIn (⟨0, [18, 1]⟩ :: fullBlocks) fullMethod := by
  obtain ⟨-, hreturn, hend⟩ := startOf_fullBlocks
  have htable := @ExceptionTableIn.cons (⟨0, [18, 1]⟩ :: fullBlocks) 0 5 4 0 [] (by decide)
    (by decide) (by decide) .nil
  rw [hend, hreturn] at htable
  exact ⟨htable, fun e he => absurd he List.not_mem_nil⟩

theorem insertSpaceAt_failsCleanly_iff_full : ∃ r r', new fullMethod = some r ∧
    r.insertSpaceAt 2 0 3 [19, 1, 0] = some (none, r') ∧
    (FailsCleanly fullMethod r' ↔ (∀ bci ∈ tableBcis fullMethod,
        movedAll (relocations 2 (r.requested 0 [19, 1, 0])) bci = bci) ∧
      ∀ ci ∈ r'.changes.head?, ¬r'.SlopTooLong (r'.notified ci).2) := by
  obtain ⟨r, r', hnew, hrun, -⟩ := insertSpaceAt_fullMethod
  exact ⟨r, r', hnew, hrun,
    insertSpaceAt_failsCleanly_iff insertion_fullMethod tablesIn_fullMethod hnew hrun⟩

/-- The handler is behind the code of the method, which has no instruction at 65534. -/
theorem not_failsCleanly_full :
    Insertion fullMethod [] ⟨0, [18, 1]⟩ fullBlocks [19, 1, 0] ∧
    TablesIn (⟨0, [18, 1]⟩ :: fullBlocks) fullMethod ∧
    ∃ r r', new fullMethod = some r ∧ r.insertSpaceAt 2 0 3 [19, 1, 0] = some (none, r') ∧
      r'.method.exceptionTable = [0, 65535, 65534, 0] ∧ ¬FailsCleanly fullMethod r' := by
  obtain ⟨r, r', hnew, hrun, htable⟩ := insertSpaceAt_fullMethod
  refine ⟨insertion_fullMethod, tablesIn_fullMethod, r, r', hnew, hrun, htable, fun hclean => ?_⟩
  have hsame := hclean.exceptionTable
  rw [htable] at hsame
  cases hsame

end Relocator

end HotSpot
