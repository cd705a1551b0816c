import HotSpot.Runtime.RelocatorTermination

/-! # Tables of relocated code

The exception table and the local variable table are adjusted at each relocation. A range that
goes from one instruction up to another one, or to the end of the code, follows the instructions,
so that each of them is covered by the handlers and the variables that covered it before.
-/

namespace HotSpot

open Bytecode Bytecodes Relocator

/-! ## Entries -/

/-- The exception table with its bcis mapped. -/
def mapExceptionTable (f : Nat → Nat) : List Int → List Int
  | start :: stop :: handler :: index :: rest =>
    f start.toNat :: f stop.toNat :: f handler.toNat :: index :: mapExceptionTable f rest
  | rest => rest

/-- The entry with its start and its end mapped. -/
def mapLocalVar (f : Nat → Nat) (e : LocalVariableTableElement) : LocalVariableTableElement :=
  { e with startBci := f e.startBci, length := f (e.startBci + e.length) - f e.startBci }

def mapTables (f : Nat → Nat) (method : ConstMethodOop) : ConstMethodOop :=
  { method with
    exceptionTable := mapExceptionTable f method.exceptionTable
    localVariableTable := method.localVariableTable.map (mapLocalVar f) }

/-- The ranges are not empty, and from an instruction up to another one, or to the end. -/
inductive ExceptionTableIn (gs : List Block) : List Int → Prop where
  | nil : ExceptionTableIn gs []
  | cons {i j k : Nat} {index : Int} {rest : List Int} (hij : i < j) (hj : j ≤ gs.length)
      (hk : k < gs.length) (hrest : ExceptionTableIn gs rest) :
      ExceptionTableIn gs (startOf gs i :: startOf gs j :: startOf gs k :: index :: rest)

def LocalVarIn (gs : List Block) (e : LocalVariableTableElement) : Prop :=
  ∃ i j, i ≤ j ∧ j ≤ gs.length ∧ e.startBci = startOf gs i ∧ e.startBci + e.length = startOf gs j

/-- The tables of a method that was parsed and verified. -/
structure TablesIn (gs : List Block) (method : ConstMethodOop) : Prop where
  exceptionTable : ExceptionTableIn gs method.exceptionTable
  localVariableTable : ∀ e ∈ method.localVariableTable, LocalVarIn gs e

/-- The handlers of the entries that cover a bci, with what they catch. -/
def handlersAt (bci : Nat) : List Int → List (Int × Int)
  | start :: stop :: handler :: index :: rest =>
    if start ≤ bci ∧ bci < stop then (handler, index) :: handlersAt bci rest
    else handlersAt bci rest
  | _ => []

/-- The entries of the variables that are live at a bci. -/
def variablesAt (bci : Nat) (table : List LocalVariableTableElement) :
    List LocalVariableTableElement :=
  table.filter fun e => e.startBci ≤ bci ∧ bci < e.startBci + e.length

/-! ## Mapped entries -/

section Mapped

variable {gs gs' : List Block} {f : Nat → Nat} {table : List Int}

theorem startOf_le_layout (gs : List Block) (k : Nat) : startOf gs k ≤ (layout gs).length := by
  rw [startOf]
  conv_rhs => rw [← List.take_append_drop k gs, layout_append, List.length_append]
  exact Nat.le_add_right _ _

theorem ExceptionTableIn.map_id (h : ExceptionTableIn gs table) :
    mapExceptionTable id table = table := by
  induction h with
  | nil => rfl
  | cons hij hj hk hrest ih =>
    rw [mapExceptionTable, ih]
    rfl

theorem mapExceptionTable_comp (f g : Nat → Nat) (table : List Int) :
    mapExceptionTable f (mapExceptionTable g table) = mapExceptionTable (f ∘ g) table := by
  fun_induction mapExceptionTable g table with
  | case1 start stop handler index rest ih =>
    rw [mapExceptionTable, mapExceptionTable, ih]
    rfl
  | case2 rest hshort => rw [mapExceptionTable, mapExceptionTable] <;> exact hshort

variable (hf : ∀ k ≤ gs.length, f (startOf gs k) = startOf gs' k)
  (hlength : gs'.length = gs.length)

include hf hlength

theorem ExceptionTableIn.map (h : ExceptionTableIn gs table) :
    ExceptionTableIn gs' (mapExceptionTable f table) := by
  induction h with
  | nil => exact .nil
  | @cons i j k index rest hij hj hk hrest ih =>
    rw [mapExceptionTable, Int.toNat_natCast, Int.toNat_natCast, Int.toNat_natCast,
      hf i (by omega), hf j hj, hf k (by omega)]
    exact .cons hij (hlength ▸ hj) (hlength ▸ hk) ih

variable (hpos : ∀ g ∈ gs, 0 < g.length) (hpos' : ∀ g ∈ gs', 0 < g.length)

include hpos'

theorem mapLocalVar_bcis {e : LocalVariableTableElement} {i j : Nat} (hij : i ≤ j)
    (hj : j ≤ gs.length) (hstart : e.startBci = startOf gs i)
    (hend : e.startBci + e.length = startOf gs j) : (mapLocalVar f e).startBci = startOf gs' i ∧
      (mapLocalVar f e).startBci + (mapLocalVar f e).length = startOf gs' j := by
  have hle := startOf_le hpos' hij (hlength ▸ hj)
  have hstart' : (mapLocalVar f e).startBci = startOf gs' i := by
    rw [mapLocalVar, hstart, hf i (by omega)]
  refine ⟨hstart', ?_⟩
  rw [hstart', mapLocalVar, hend, hstart, hf i (by omega), hf j hj]
  exact Nat.add_sub_cancel' hle

theorem LocalVarIn.map {e : LocalVariableTableElement} (h : LocalVarIn gs e) :
    LocalVarIn gs' (mapLocalVar f e) := by
  obtain ⟨i, j, hij, hj, hstart, hend⟩ := h
  exact ⟨i, j, hij, hlength ▸ hj, mapLocalVar_bcis hf hlength hpos' hij hj hstart hend⟩

theorem TablesIn.map {method : ConstMethodOop} (h : TablesIn gs method) :
    TablesIn gs' (mapTables f method) := by
  refine ⟨h.exceptionTable.map hf hlength, fun e he => ?_⟩
  obtain ⟨e₀, he₀, rfl⟩ := List.mem_map.mp he
  exact (h.localVariableTable e₀ he₀).map hf hlength hpos'

theorem mapTables_comp {f₁ : Nat → Nat} {method : ConstMethodOop} (h : TablesIn gs method) :
    mapTables f₁ (mapTables f method) = mapTables (f₁ ∘ f) method := by
  have hvar : ∀ e ∈ method.localVariableTable,
      mapLocalVar f₁ (mapLocalVar f e) = mapLocalVar (f₁ ∘ f) e := by
    intro e he
    obtain ⟨i, j, hij, hj, hstart, hend⟩ := h.localVariableTable e he
    obtain ⟨hstart', hend'⟩ := mapLocalVar_bcis hf hlength hpos' hij hj hstart hend
    rw [mapLocalVar, hend', hstart', mapLocalVar, mapLocalVar]
    simp only [Function.comp_apply]
    rw [hend, hstart, hf i (by omega), hf j hj]
  rw [mapTables, mapTables, mapTables]
  simp only [mapExceptionTable_comp, List.map_map, ConstMethodOop.mk.injEq, true_and, and_true]
  exact List.map_congr_left fun e he => hvar e he

include hpos

omit hf in
/-- Where an instruction is does not matter for what is in front of it. -/
theorem startOf_le_iff {i k : Nat} (hi : i ≤ gs.length) (hk : k ≤ gs.length) :
    startOf gs' i ≤ startOf gs' k ↔ startOf gs i ≤ startOf gs k := by
  rcases Nat.lt_or_ge k i with hlt | hle
  · have hlt₁ := startOf_lt hpos hlt hi
    have hlt₂ := startOf_lt hpos' hlt (hlength ▸ hi)
    omega
  · exact iff_of_true (startOf_le hpos' hle (hlength ▸ hk)) (startOf_le hpos hle hk)

/-- Each instruction has the handlers that it had. -/
theorem ExceptionTableIn.handlersAt_map (h : ExceptionTableIn gs table) {k : Nat}
    (hk : k ≤ gs.length) : handlersAt (startOf gs' k) (mapExceptionTable f table) =
      (handlersAt (startOf gs k) table).map fun (handler, index) => (f handler.toNat, index) := by
  induction h with
  | nil => rfl
  | @cons i j l index rest hij hj hl hrest ih =>
    have hstart := startOf_le_iff hlength hpos hpos' (by omega : i ≤ gs.length) hk
    have hstop := startOf_le_iff hlength hpos hpos' hj hk
    rw [mapExceptionTable, Int.toNat_natCast, Int.toNat_natCast, Int.toNat_natCast,
      hf i (by omega), hf j hj, hf l (by omega), handlersAt, handlersAt, ih]
    have hcovers : ((startOf gs' i : Int) ≤ startOf gs' k ∧ (startOf gs' k : Int) < startOf gs' j) ↔
        ((startOf gs i : Int) ≤ startOf gs k ∧ (startOf gs k : Int) < startOf gs j) := by
      omega
    rw [if_congr hcovers rfl rfl]
    split
    next => simp only [List.map_cons, Int.toNat_natCast, hf l (Nat.le_of_lt hl)]
    next => rfl

theorem variablesAt_map {vars : List LocalVariableTableElement}
    (h : ∀ e ∈ vars, LocalVarIn gs e) {k : Nat} (hk : k ≤ gs.length) :
    variablesAt (startOf gs' k) (vars.map (mapLocalVar f)) =
      (variablesAt (startOf gs k) vars).map (mapLocalVar f) := by
  rw [variablesAt, variablesAt, List.filter_map]
  congr 1
  refine List.filter_congr fun e he => ?_
  obtain ⟨i, j, hij, hj, hstart, hend⟩ := h e he
  obtain ⟨hstart', hend'⟩ := mapLocalVar_bcis hf hlength hpos' hij hj hstart hend
  have hfirst := startOf_le_iff hlength hpos hpos' (by omega : i ≤ gs.length) hk
  have hlast := startOf_le_iff hlength hpos hpos' hj hk
  simp only [Function.comp_apply, decide_eq_decide]
  omega

end Mapped

theorem TablesIn.map_id {gs : List Block} {method : ConstMethodOop} (h : TablesIn gs method) :
    mapTables id method = method := by
  have hvar : ∀ e, mapLocalVar id e = e := fun e => by
    rw [mapLocalVar, id, id, Nat.add_sub_cancel_left]
  rw [mapTables, h.exceptionTable.map_id, List.map_congr_left fun e _ => hvar e, List.map_id']

/-! ## One relocation -/

section Relocation

variable {gs gs' : List Block} {bci : Nat} {delta : Int} {table : List Int}
  (hstarts : ∀ k, startOf gs' k = ChangeItem.moved bci delta (startOf gs k))
  (hlength : gs'.length = gs.length)
  (hpos : ∀ g ∈ gs, 0 < g.length) (hpos' : ∀ g ∈ gs', 0 < g.length)

include hstarts hlength hpos hpos'

theorem adjustExceptionTable_eq (h : ExceptionTableIn gs table) :
    adjustExceptionTable bci delta table =
      mapExceptionTable (ChangeItem.moved bci delta) table := by
  induction h with
  | nil => rfl
  | @cons i j l index rest hij hj hl hrest ih =>
    have hlt := startOf_lt hpos hij hj
    have hstart := moved_startOf hstarts hlength hpos' (by omega : i ≤ gs.length)
    have hstop := moved_startOf hstarts hlength hpos' hj
    have hhandler := moved_startOf hstarts hlength hpos' (Nat.le_of_lt hl)
    have hhandler' : (if (startOf gs l : Int) > bci then (startOf gs l : Int) + delta
        else startOf gs l) = (ChangeItem.moved bci delta (startOf gs l) : Nat) := by
      rw [hhandler]
      exact if_congr (by omega) rfl rfl
    rw [adjustExceptionTable, mapExceptionTable, ih, Int.toNat_natCast, Int.toNat_natCast,
      Int.toNat_natCast]
    rw [hhandler']
    -- An end behind the start moves with it, and alone when the break is in the range.
    split
    next hgt =>
      rw [if_pos (by omega)] at hstart hstop
      rw [hstart, hstop]
    next hle =>
      rw [if_neg (by omega)] at hstart
      rw [hstart]
      split
      next hin =>
        rw [if_pos (by omega)] at hstop
        rw [hstop]
      next hout =>
        rw [if_neg (by omega)] at hstop
        rw [hstop]

/-- The fields have two bytes, which is enough for code that is not too long. -/
theorem adjustLocalVar_eq (hfits : (layout gs').length ≤ maxMethodLength)
    {e : LocalVariableTableElement} (h : LocalVarIn gs e) :
    adjustLocalVar bci delta e = mapLocalVar (ChangeItem.moved bci delta) e := by
  obtain ⟨i, j, hij, hj, hstart, hend⟩ := h
  have hmovedStart := moved_startOf hstarts hlength hpos' (by omega : i ≤ gs.length)
  have hmovedEnd := moved_startOf hstarts hlength hpos' hj
  have hle := startOf_le hpos hij hj
  have hle' := startOf_le hpos' hij (hlength ▸ hj)
  have hlast := startOf_le_layout gs' j
  rw [← hstart] at hmovedStart
  rw [← hend] at hmovedEnd
  rw [hstarts i, hstarts j, ← hstart, ← hend] at hle'
  rw [hstarts j, ← hend] at hlast
  rw [maxMethodLength] at hfits
  rw [adjustLocalVar, mapLocalVar]
  split
  next hgt =>
    rw [if_pos hgt] at hmovedStart
    rw [if_pos (by omega)] at hmovedEnd
    have hbci : ((e.startBci + delta : Int) % 2 ^ 16).toNat =
        ChangeItem.moved bci delta e.startBci := by omega
    have hsame : ChangeItem.moved bci delta (e.startBci + e.length) -
        ChangeItem.moved bci delta e.startBci = e.length := by omega
    rw [hbci, hsame]
  next hle =>
    rw [if_neg hle] at hmovedStart
    have hbci : ChangeItem.moved bci delta e.startBci = e.startBci := by omega
    split
    next hin =>
      rw [if_pos hin] at hmovedEnd
      have hsame : ((e.length + delta : Int) % 2 ^ 16).toNat =
          ChangeItem.moved bci delta (e.startBci + e.length) - e.startBci := by omega
      rw [hbci, hsame]
    next hout =>
      rw [if_neg hout] at hmovedEnd
      have hsame : ChangeItem.moved bci delta (e.startBci + e.length) - e.startBci = e.length := by
        omega
      rw [hbci, hsame]

theorem adjustTables_eq (hfits : (layout gs').length ≤ maxMethodLength) {method : ConstMethodOop}
    (h : TablesIn gs method) :
    adjustTables bci delta method = mapTables (ChangeItem.moved bci delta) method := by
  rw [adjustTables, mapTables,
    adjustExceptionTable_eq hstarts hlength hpos hpos' h.exceptionTable,
    List.map_congr_left fun e he =>
      adjustLocalVar_eq hstarts hlength hpos hpos' hfits (h.localVariableTable e he)]

end Relocation

/-! ## A run -/

namespace Relocator

variable {r r' : Relocator}

/-- The tables follow the blocks, from one turn to the next. -/
theorem BlockTurns.tables {gs gs' : List Block} {relocs : List (Nat × Int)}
    (h : BlockTurns gs r relocs gs' r') (hin : TablesIn gs r.method) :
    r'.method = mapTables (movedAll relocs) r.method ∧ TablesIn gs' r'.method := by
  induction h with
  | refl gs r => exact ⟨hin.map_id.symm, hin⟩
  | @turn os os₁ gs gs₁ gs' r r₁ r' ci rest relocs hlaid hos hchanges hchange hhandled hturns ih =>
    have hlength := hhandled.length_eq hlaid hos
    have hpos' := hhandled.laidOut.pos
    have hfits := Nat.le_trans hhandled.laidOut.layout_le hhandled.laidOut.fits
    have hstarts : ∀ k ≤ gs.length, ChangeItem.moved (r.notified ci).1 (r.notified ci).2
        (startOf gs k) = startOf gs₁ k := fun k _ => (hhandled.starts k).symm
    have hmethod : r₁.method =
        mapTables (ChangeItem.moved (r.notified ci).1 (r.notified ci).2) r.method := by
      rcases handleCodeChange_relocation hchange with ⟨-, hrelocation⟩ | ⟨-, rfl, hzero⟩
      · rw [hrelocation.method]
        exact adjustTables_eq hhandled.starts hlength hlaid.pos hpos' hfits hin
      · rw [hzero, moved_zero]
        exact hin.map_id.symm
    have hin₁ : TablesIn gs₁ r₁.method := by
      rw [hmethod]
      exact hin.map hstarts hlength hpos'
    obtain ⟨hrest, hin'⟩ := ih hin₁
    refine ⟨?_, hin'⟩
    rw [hrest]
    simp only
    rw [hmethod, mapTables_comp hstarts hlength hpos' hin]
    congr 1
    funext bci
    rw [Function.comp_apply, movedAll_append, movedAll_turn hchange]

/-- The tables of a new method are those of the old one under a map of the instructions, so that
each instruction is covered as it was. -/
structure TablesFollow (gs gs' : List Block) (f : Nat → Nat) (method method' : ConstMethodOop) :
    Prop where
  map : ∀ k ≤ gs.length, f (startOf gs k) = startOf gs' k
  increasing : ∀ i j, i < j → j ≤ gs.length →
    startOf gs i < startOf gs j ∧ startOf gs' i < startOf gs' j
  exceptionTable : method'.exceptionTable = mapExceptionTable f method.exceptionTable
  localVariableTable :
    method'.localVariableTable = method.localVariableTable.map (mapLocalVar f)
  handlers : ∀ k < gs.length, handlersAt (startOf gs' k) method'.exceptionTable =
    (handlersAt (startOf gs k) method.exceptionTable).map
      fun (handler, index) => (f handler.toNat, index)
  localVariables : ∀ k < gs.length, variablesAt (startOf gs' k) method'.localVariableTable =
    (variablesAt (startOf gs k) method.localVariableTable).map (mapLocalVar f)

/-- The tables follow the code, whatever jumps are widened and switches padded. -/
theorem insertSpaceAt_tables {fuel : Nat} {method method' : ConstMethodOop}
    {as bs : List Block} {g : Block} {buf : ClassFileParser.Bytes}
    (h : Insertion method as g bs buf) (hin : TablesIn (as ++ g :: bs) method)
    (hnew : new method = some r)
    (hrun : r.insertSpaceAt fuel (layout as).length buf.length buf = some (some method', r')) :
    ∃ gs' f, RelocatedInto (as ++ ⟨0, buf⟩ :: bs) gs' method'.code ∧
      TablesFollow (as ++ g :: bs) gs' f method method' := by
  obtain ⟨hmethod, -⟩ := new_eq hnew
  obtain ⟨gs', r₁, rfl, -, hblocks, hlaid, hcode⟩ := h.succeeded hnew hrun
  refine ⟨gs', movedAll (relocations fuel (r.requested (layout as).length buf)), hcode, ?_⟩
  have hin₀ : TablesIn (as ++ g :: bs) (r.requested (layout as).length buf).method :=
    hmethod ▸ hin
  obtain ⟨htables, -⟩ := hblocks.tables hin₀
  have hmap : ∀ k ≤ (as ++ g :: bs).length, movedAll (relocations fuel
      (r.requested (layout as).length buf)) (startOf (as ++ g :: bs) k) = startOf gs' k :=
    fun k _ => (hblocks.starts k).symm
  have hlength : gs'.length = (as ++ g :: bs).length := by
    rw [← hcode.relocated.length_eq]
    simp
  have hpos : ∀ o ∈ as ++ g :: bs, 0 < o.length := fun o ho => (h.method.instruction o ho).pos
  have hexception : r₁.newMethod.exceptionTable = mapExceptionTable (movedAll (relocations fuel
      (r.requested (layout as).length buf))) method.exceptionTable := by
    rw [newMethod, htables, ← hmethod]
    rfl
  have hlocal : r₁.newMethod.localVariableTable = method.localVariableTable.map (mapLocalVar
      (movedAll (relocations fuel (r.requested (layout as).length buf)))) := by
    rw [newMethod, htables, ← hmethod]
    rfl
  constructor
  case map => exact hmap
  case increasing =>
    exact fun i j hij hj => ⟨startOf_lt hpos hij hj, startOf_lt hlaid.pos hij (hlength ▸ hj)⟩
  case exceptionTable => exact hexception
  case localVariableTable => exact hlocal
  case handlers =>
    intro k hk
    rw [hexception]
    exact hin.exceptionTable.handlersAt_map hmap hlength hpos hlaid.pos (Nat.le_of_lt hk)
  case localVariables =>
    intro k hk
    rw [hlocal]
    exact variablesAt_map hmap hlength hpos hlaid.pos hin.localVariableTable (Nat.le_of_lt hk)

theorem insertSpaceAt_tables_switch_branch :
    (∃ gs' f, RelocatedInto (⟨0, [19, 1, 0]⟩ :: switchBlocks) gs' relocatedSwitchMethod.code ∧
      TablesFollow (⟨0, [18, 1]⟩ :: switchBlocks) gs' f switchMethod relocatedSwitchMethod) ∧
    ∃ gs' f method', RelocatedInto (branchBlocks ++ ⟨0, [19, 1, 0]⟩ :: behindBlocks 32761) gs'
        method'.code ∧
      TablesFollow (branchBlocks ++ ⟨0, [18, 1]⟩ :: behindBlocks 32761) gs' f branchMethod
        method' := by
  have hswitch : TablesIn (⟨0, [18, 1]⟩ :: switchBlocks) switchMethod := by
    refine ⟨?_, fun e he => ?_⟩
    · exact .cons (i := 0) (j := 2) (k := 2) (by decide) (by decide) (by decide) .nil
    · rw [List.mem_singleton.mp he]
      exact ⟨1, 3, by decide, by decide, rfl, rfl⟩
  have hbranch : TablesIn (branchBlocks ++ ⟨0, [18, 1]⟩ :: behindBlocks 32761) branchMethod := by
    have hlength (n : Nat) : 3 < (branchBlocks ++ ⟨0, [18, 1]⟩ :: behindBlocks n).length := by
      simp [branchBlocks, behindBlocks]
    refine ⟨?_, fun e he => ?_⟩
    · exact .cons (i := 0) (j := 3) (k := 3) (by decide) (Nat.le_of_lt (hlength _)) (hlength _) .nil
    · rw [List.mem_singleton.mp he]
      exact ⟨1, 3, by decide, Nat.le_of_lt (hlength _), rfl, rfl⟩
  obtain ⟨r₁, r₁', hnew₁, hrun₁, -⟩ := insertSpaceAt_switchMethod
  obtain ⟨r₂, fuel, method', r₂', hnew₂, hrun₂⟩ := insertSpaceAt_branchMethod
  refine ⟨insertSpaceAt_tables insertion_switchMethod hswitch hnew₁ hrun₁, ?_⟩
  obtain ⟨gs', f, hfollow⟩ := insertSpaceAt_tables insertion_branchMethod hbranch hnew₂ hrun₂
  exact ⟨gs', f, method', hfollow⟩

end Relocator

/-! ## Line numbers of relocated code

Each relocation adjusts the line number table of the method, which stays as it is, and stores the
result aside. The table of the new method is what the last relocation makes of the old one, so
what the relocations in front of it did is lost.
-/

/-- Each entry is about an instruction. -/
def LinesIn (gs : List Block) (table : List (Int × Int)) : Prop :=
  ∀ entry ∈ table, ∃ k < gs.length, entry.1 = startOf gs k

def mapLines (f : Nat → Nat) (table : List (Int × Int)) : List (Int × Int) :=
  table.map fun (bci, line) => (f bci.toNat, line)

/-- The new table has the line of each entry where the instruction of the entry is. -/
def LinesFollow (gs gs' : List Block) (method method' : ConstMethodOop) : Prop :=
  ∃ f : Nat → Nat, (∀ k ≤ gs.length, f (startOf gs k) = startOf gs' k) ∧
    method'.lineNumberTable = method.lineNumberTable.map (mapLines f)

namespace Relocator

variable {r r' : Relocator} {gs gs' : List Block} {relocs : List (Nat × Int)}

/-- The table that is stored aside comes from the last relocation. -/
theorem BlockTurns.lines (h : BlockTurns gs r relocs gs' r') {table : List (Int × Int)}
    (htable : r.method.lineNumberTable = some table) : r'.compressedLineNumberTable =
      (relocs.getLast?.map fun reloc => adjustedLines reloc.1 reloc.2 table).or
        r.compressedLineNumberTable := by
  induction h with
  | refl => rfl
  | @turn os os₁ gs gs₁ gs' r r₁ r' ci rest relocs hlaid hos hchanges hchange hhandled hturns ih =>
    rcases handleCodeChange_relocation hchange with ⟨hrelocates, hrelocation⟩ | ⟨hstays, rfl, -⟩
    · have htable₁ : r₁.method.lineNumberTable = some table := by
        rw [hrelocation.method]
        exact htable
      have hlines := hrelocation.lines
      rw [htable, Option.map_some, Option.some_or] at hlines
      rw [ih htable₁, hrelocates, if_pos rfl, List.singleton_append, List.getLast?_cons]
      simp only
      rw [hlines]
      cases relocs.getLast? <;> rfl
    · rw [ih htable, hstays, if_neg Bool.false_ne_true, List.nil_append]

/-- The request is relocated for, when it is not in the queue any more. -/
theorem BlockTurns.relocs_ne_nil {bci : Nat} {buf : ClassFileParser.Bytes}
    (h : BlockTurns gs (r.requested bci buf) relocs gs' r') (hempty : r'.changes = []) :
    relocs ≠ [] := by
  cases h with
  | refl => cases hempty
  | turn hlaid hos hchanges hchange hhandled hturns =>
    obtain ⟨rfl, -⟩ := List.cons.inj hchanges
    exact List.cons_ne_nil _ _

/-- A block behind the last break stays behind it. -/
theorem BlockTurns.behind (h : BlockTurns gs r relocs gs' r') : ∀ last ∈ relocs.getLast?,
    ∀ k ≤ gs.length, last.1 < movedAll relocs.dropLast (startOf gs k) →
      last.1 < startOf gs' k := by
  induction h with
  | refl => exact fun last hlast => by cases hlast
  | @turn os os₁ gs gs₁ gs' r r₁ r' ci rest relocs hlaid hos hchanges hchange hhandled hturns ih =>
    intro last hlast k hk hlt
    have hlength := hhandled.length_eq hlaid hos
    cases hrelocates : relocates ci with
    | false =>
      have hstart := movedAll_turn hchange (startOf gs k)
      rw [hrelocates, if_neg Bool.false_ne_true, movedAll_nil, ← hhandled.starts] at hstart
      rw [hrelocates, if_neg Bool.false_ne_true, List.nil_append] at hlast hlt
      rw [hstart] at hlt
      exact ih last hlast k (hlength ▸ hk) hlt
    | true =>
      rw [hrelocates, if_pos rfl, List.singleton_append] at hlast hlt
      cases relocs with
      | nil =>
        obtain rfl : r.notified ci = last := Option.some.inj hlast
        rw [notified_fst] at hhandled hlt ⊢
        rw [hturns.starts, movedAll_nil]
        exact hhandled.behind hlaid hos hchanges hk hlt
      | cons reloc relocs =>
        rw [List.getLast?_cons_cons] at hlast
        rw [List.dropLast_cons_cons, movedAll_cons, ← hhandled.starts] at hlt
        exact ih last hlast k (hlength ▸ hk) hlt

/-- The relocations in front of the last one leave an instruction where it is, on the whole, or it
was behind the last break and is not any more, for just as much as the last one moves a bci. -/
def KeepsLine (relocs : List (Nat × Int)) (bci : Nat) : Prop :=
  ∀ last ∈ relocs.getLast?, movedAll relocs.dropLast bci = bci ∨
    movedAll relocs.dropLast bci ≤ last.1 ∧ last.1 < bci ∧
      (movedAll relocs.dropLast bci : Int) = bci + last.2

theorem adjusted_eq_iff (h : BlockTurns gs r relocs gs' r') {last : Nat × Int}
    (hlast : last ∈ relocs.getLast?) {k : Nat} (hk : k ≤ gs.length) :
    (startOf gs k : Int) + (if (startOf gs k : Int) > last.1 then last.2 else 0) = startOf gs' k ↔
      KeepsLine relocs (startOf gs k) := by
  have hsplit : relocs.dropLast ++ [last] = relocs := List.dropLast_append_getLast? last hlast
  have hnew : startOf gs' k =
      ChangeItem.moved last.1 last.2 (movedAll relocs.dropLast (startOf gs k)) := by
    rw [h.starts]
    conv_lhs => rw [← hsplit]
    rw [movedAll_append]
    rfl
  have hbehind := h.behind last hlast k hk
  have hkeeps : KeepsLine relocs (startOf gs k) ↔
      movedAll relocs.dropLast (startOf gs k) = startOf gs k ∨
        movedAll relocs.dropLast (startOf gs k) ≤ last.1 ∧ last.1 < startOf gs k ∧
          (movedAll relocs.dropLast (startOf gs k) : Int) = startOf gs k + last.2 := by
    refine ⟨fun hall => hall last hlast, fun hone last' hlast' => ?_⟩
    rw [Option.mem_def] at hlast hlast'
    obtain rfl := Option.some.inj (hlast.symm.trans hlast')
    exact hone
  rw [hkeeps]
  rw [ChangeItem.moved] at hnew
  split
  next hgt => split at hnew <;> omega
  next hle => split at hnew <;> omega

/-- The line number table follows the code exactly if the last relocation is the only one that
moves the instructions of its entries. -/
theorem insertSpaceAt_lines_iff {fuel : Nat} {method method' : ConstMethodOop}
    {as bs : List Block} {g : Block} {buf : ClassFileParser.Bytes} {table : List (Int × Int)}
    (h : Insertion method as g bs buf) (htable : method.lineNumberTable = some table)
    (hin : LinesIn (as ++ g :: bs) table) (hnew : new method = some r)
    (hrun : r.insertSpaceAt fuel (layout as).length buf.length buf = some (some method', r')) :
    ∃ gs', RelocatedInto (as ++ ⟨0, buf⟩ :: bs) gs' method'.code ∧
      (LinesFollow (as ++ g :: bs) gs' method method' ↔ ∀ entry ∈ table,
        KeepsLine (relocations fuel (r.requested (layout as).length buf)) entry.1.toNat) := by
  obtain ⟨hmethod, hnone, -⟩ := new_eq hnew
  obtain ⟨gs', r₁, rfl, hempty, hblocks, hlaid, hcode⟩ := h.succeeded hnew hrun
  refine ⟨gs', hcode, ?_⟩
  set relocs := relocations fuel (r.requested (layout as).length buf)
  have htable₀ : (r.requested (layout as).length buf).method.lineNumberTable = some table :=
    (congrArg ConstMethodOop.lineNumberTable hmethod).trans htable
  obtain ⟨last, hlast⟩ : ∃ last, relocs.getLast? = some last :=
    ⟨_, List.getLast?_eq_some_getLast (hblocks.relocs_ne_nil hempty)⟩
  have hlines : r₁.newMethod.lineNumberTable = some (adjustedLines last.1 last.2 table) := by
    rw [newMethod, hblocks.lines htable₀, hlast]
    rfl
  have hentry : ∀ f : Nat → Nat, (∀ k ≤ (as ++ g :: bs).length,
      f (startOf (as ++ g :: bs) k) = startOf gs' k) → ∀ entry ∈ table,
        ((entry.1 + (if entry.1 > last.1 then last.2 else 0), entry.2) =
          ((f entry.1.toNat : Int), entry.2) ↔ KeepsLine relocs entry.1.toNat) := by
    intro f hf entry hentry
    obtain ⟨k, hk, hbci⟩ := hin entry hentry
    rw [hbci, Int.toNat_natCast, hf k (Nat.le_of_lt hk), Prod.mk.injEq, and_iff_left rfl]
    exact adjusted_eq_iff hblocks hlast (Nat.le_of_lt hk)
  constructor
  · rintro ⟨f, hf, hfollow⟩ entry hmem
    rw [hlines, htable, Option.map_some, Option.some.injEq, adjustedLines, mapLines,
      List.map_inj_left] at hfollow
    exact (hentry f hf entry hmem).mp (hfollow entry hmem)
  · intro hkeeps
    refine ⟨movedAll relocs, fun k _ => (hblocks.starts k).symm, ?_⟩
    rw [hlines, htable, Option.map_some, Option.some.injEq, adjustedLines, mapLines,
      List.map_inj_left]
    exact fun entry hmem => (hentry _ (fun k _ => (hblocks.starts k).symm) entry hmem).mpr
      (hkeeps entry hmem)

theorem linesIn_switchMethod :
    LinesIn (⟨0, [18, 1]⟩ :: switchBlocks) [(0, 1), (2, 2), (20, 3)] := by
  rintro entry hentry
  simp only [List.mem_cons, List.not_mem_nil, or_false] at hentry
  rcases hentry with rfl | rfl | rfl
  · exact ⟨0, by decide, rfl⟩
  · exact ⟨1, by decide, rfl⟩
  · exact ⟨2, by decide, rfl⟩

theorem insertSpaceAt_lines_iff_switch :
    ∃ gs', RelocatedInto (⟨0, [19, 1, 0]⟩ :: switchBlocks) gs' relocatedSwitchMethod.code ∧
      (LinesFollow (⟨0, [18, 1]⟩ :: switchBlocks) gs' switchMethod relocatedSwitchMethod ↔
        ∀ entry ∈ [((0 : Int), (1 : Int)), (2, 2), (20, 3)],
          KeepsLine [(0, 1), (3, -1)] entry.1.toNat) := by
  obtain ⟨r, r', hnew, hrun, hrelocs⟩ := insertSpaceAt_switchMethod
  rw [← hrelocs]
  exact insertSpaceAt_lines_iff insertion_switchMethod rfl linesIn_switchMethod hnew hrun

/-- The switch is moved to 3 and its target stays at 20, but their lines are at 2 and at 19. -/
theorem not_linesFollow_switch : Insertion switchMethod [] ⟨0, [18, 1]⟩ switchBlocks [19, 1, 0] ∧
    LinesIn (⟨0, [18, 1]⟩ :: switchBlocks) [(0, 1), (2, 2), (20, 3)] ∧
    ∃ r r' gs', new switchMethod = some r ∧
      r.insertSpaceAt 4 0 3 [19, 1, 0] = some (some relocatedSwitchMethod, r') ∧
      RelocatedInto (⟨0, [19, 1, 0]⟩ :: switchBlocks) gs' relocatedSwitchMethod.code ∧
      (startOf gs' 1 = 3 ∧ startOf gs' 2 = 20) ∧
      ¬LinesFollow (⟨0, [18, 1]⟩ :: switchBlocks) gs' switchMethod relocatedSwitchMethod := by
  obtain ⟨r, r', hnew, hrun, hrelocs⟩ := insertSpaceAt_switchMethod
  obtain ⟨gs', r₁, -, -, hblocks, -, hcode⟩ :=
    insertion_switchMethod.succeeded hnew hrun
  refine ⟨insertion_switchMethod, linesIn_switchMethod, r, r', gs', hnew, hrun, hcode, ?_⟩
  have hstarts : ∀ k, startOf gs' k =
      movedAll [(0, 1), (3, -1)] (startOf (⟨0, [18, 1]⟩ :: switchBlocks) k) := fun k => by
    rw [← hrelocs]
    exact hblocks.starts k
  have hlast : startOf gs' 2 = 20 := (hstarts 2).trans (by decide)
  refine ⟨⟨(hstarts 1).trans (by decide), hlast⟩, ?_⟩
  rintro ⟨f, hf, hlines⟩
  have htarget : f 20 = 20 := (hf 2 (by decide)).trans hlast
  have htables : (some [(0, 1), (2, 2), (19, 3)] : Option (List (Int × Int))) =
      some [(↑(f 0), 1), (↑(f 2), 2), (↑(f 20), 3)] := hlines
  simp [htarget] at htables

end Relocator

end HotSpot
