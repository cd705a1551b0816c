import HotSpot.Classfile.ArrayDimensions
import HotSpot.Classfile.FrameArrays

/-! # The frame keeps values of two slots whole

The invariant of the arrays, which makes the assertions of the stores hold.
-/

namespace HotSpot

open VerificationType CurrentFrame

/-! ## Locals in pairs -/

namespace PairedLocals

variable {ts : List VerificationType}

/-- Words for the types, where those of two slots are zero. -/
def wordOf : VerificationType → Word
  | long => .long 0
  | long2 => .long2 0
  | double => .double 0
  | double2 => .double2 0
  | _ => .undefined

theorem wordOf_first (k : Wide) : wordOf k.first = k.word 0 := by cases k <;> rfl

theorem wordOf_second (k : Wide) : wordOf k.second = k.word2 0 := by cases k <;> rfl

theorem localsMatch (hpaired : PairedLocals ts) :
    LocalsMatch (fun _ _ => True) ts (ts.map wordOf) where
  length_eq := by simp
  paired := hpaired
  one _ _ _ := trivial
  two {i} k hi := by
    refine ⟨0, ?_, ?_⟩
    · rw [List.getElem?_map, hi, Option.map_some, wordOf_first]
    · rw [List.getElem?_map, hpaired.second_of_first hi, Option.map_some, wordOf_second]

theorem setLocal (hpaired : PairedLocals ts) {index : Nat} {t : VerificationType}
    (hcat : t.isCategory1 = true) :
    PairedLocals ((cutBefore index (cutAfter index ts)).set index t) :=
  (hpaired.localsMatch.setLocal (fun _ => trivial) (w := .undefined) hcat trivial).paired

theorem setLocal2 (hpaired : PairedLocals ts) {index : Nat} (hlt : index + 1 < ts.length)
    (k : Wide) :
    PairedLocals
      (((cutBefore index (cutAfter (index + 1) ts)).set index k.first).set (index + 1) k.second) :=
  (hpaired.localsMatch.setLocal2 (fun _ => trivial) hlt k 0).paired

theorem map (hpaired : PairedLocals ts) {g : VerificationType → VerificationType}
    (hone : ∀ t, t.isCategory1 = true → (g t).isCategory1 = true)
    (htwo : ∀ t, t.isCategory1 = false → g t = t) : PairedLocals (ts.map g) :=
  have hmatch : LocalsMatch (fun _ _ => True) (ts.map g) (ts.map wordOf) :=
    hpaired.localsMatch.map hone htwo fun _ _ _ _ _ => trivial
  hmatch.paired

end PairedLocals

/-! ## Unused locals -/

/-- The types from `n` on are bogus. -/
def BogusFrom (n : Int) (ts : List VerificationType) : Prop :=
  ∀ i : Nat, n ≤ i → ts.getD i bogus = bogus

theorem getD_set_bogus {ts : List VerificationType} {i : Nat} (j : Nat)
    (hi : ts.getD i bogus = bogus) : (ts.set j bogus).getD i bogus = bogus := by
  rw [List.getD_eq_getElem?_getD, List.getElem?_set]
  split
  · split <;> rfl
  · rwa [← List.getD_eq_getElem?_getD]

theorem getD_cutAfter {ts : List VerificationType} {i : Nat} (j : Nat)
    (hi : ts.getD i bogus = bogus) : (cutAfter j ts).getD i bogus = bogus := by
  unfold cutAfter
  split
  · exact getD_set_bogus (j + 1) hi
  · exact hi

theorem getD_cutBefore {ts : List VerificationType} {i : Nat} (j : Nat)
    (hi : ts.getD i bogus = bogus) : (cutBefore j ts).getD i bogus = bogus := by
  unfold cutBefore
  split
  · exact getD_set_bogus (j - 1) hi
  · exact hi

theorem getD_set_ne {ts : List VerificationType} {i j : Nat} {t : VerificationType}
    (hne : j ≠ i) : (ts.set j t).getD i bogus = ts.getD i bogus := by
  rw [List.getD_eq_getElem?_getD, List.getElem?_set_ne hne, ← List.getD_eq_getElem?_getD]

namespace BogusFrom

variable {n n' : Int} {ts : List VerificationType}

theorem mono (hbogus : BogusFrom n ts) (hle : n ≤ n') : BogusFrom n' ts :=
  fun i hi => hbogus i (Int.le_trans hle hi)

/-- Both halves of a value are in use. -/
theorem second_lt (hbogus : BogusFrom n ts) {i : Nat} {k : Wide} (hi : ts[i]? = some k.second) :
    (i : Int) < n := by
  by_contra hle
  have := hbogus i (Int.not_lt.1 hle)
  rw [List.getD_eq_getElem?_getD, hi] at this
  cases k <;> cases this

theorem replicate (n : Int) (m : Nat) : BogusFrom n (List.replicate m bogus) := by
  intro i _
  rw [List.getD_eq_getElem?_getD, List.getElem?_replicate]
  split <;> rfl

end BogusFrom

namespace FrameArrays

/-- The invariant of a frame. -/
structure Whole (f : FrameArrays) : Prop where
  length_locals : (f.locals.length : Int) = f.maxLocals
  length_stack : (f.stack.length : Int) = f.maxStack
  maxLocals_lt : f.maxLocals < 65536
  maxStack_lt : f.maxStack < 65536
  localsSize_nonneg : 0 ≤ f.localsSize
  localsSize_le : f.localsSize ≤ f.maxLocals
  stackSize_nonneg : 0 ≤ f.stackSize
  stackSize_le : f.stackSize ≤ f.maxStack
  paired : PairedLocals f.locals
  unused : BogusFrom f.localsSize f.locals

variable {f : FrameArrays}

/-! ## The stores -/

theorem check_true {b : Bool} (a : FrameAssertion) (hb : b = true) : check b a = .ok () := by
  rw [hb]
  rfl

namespace Whole

theorem cutNext_eq (hf : f.Whole) (index : Nat) :
    cutNext f index f.locals = .ok (cutAfter index f.locals) := by
  unfold cutNext cutAfter
  split
  next hfirst =>
    obtain ⟨k, hk⟩ := isFirstHalf_getD.1 hfirst
    have hlt := hf.unused.second_lt (hf.paired.second_of_first hk)
    rw [check_true _ (by simpa using hlt)]
    rfl
  next => rfl

/-- A second half at `index` has its first half in front. -/
theorem cutPrevious_eq (hf : f.Whole) {index last : Nat} (hle : index ≤ last) :
    cutPrevious index (cutAfter last f.locals) =
      .ok (cutBefore index (cutAfter last f.locals)) := by
  unfold cutPrevious cutBefore
  split
  next hsecond =>
    obtain ⟨k, hk⟩ := isSecondHalf_getD.1 hsecond
    rw [getElem?_cutAfter] at hk
    rcases hk with ⟨⟨heq, -⟩, -⟩ | ⟨-, hk⟩
    · omega
    · obtain ⟨j, rfl, -⟩ := hf.paired.first_of_second hk
      rw [check_true _ (by simp)]
      rfl
  next => rfl

theorem holesAreBogus_cut (hf : f.Whole) (index last : Nat) (ts : List VerificationType)
    (hts : ∀ i, i < index →
      ts.getD i bogus = (cutBefore index (cutAfter last f.locals)).getD i bogus) :
    holesAreBogus f index ts = true := by
  simp only [holesAreBogus, List.all_eq_true, List.mem_range'_1, decide_eq_true_eq]
  rintro i ⟨hle, hlt⟩
  have hnonneg := hf.localsSize_nonneg
  rw [hts i (by omega)]
  exact getD_cutBefore index (getD_cutAfter last (hf.unused i (by omega)))

/-- `set_local` passes its assertions and does what is said of the current frame. -/
theorem setLocal_eq (hf : f.Whole) {index : Nat} {t : VerificationType}
    (hcheck : t.isCheck = false) (hlt : (index : Int) < f.maxLocals) :
    (setLocal index t).run f = .ok ((), { f with
      locals := (cutBefore index (cutAfter index f.locals)).set index t
      localsSize := max f.localsSize (index + 1) }) := by
  have hholes := hf.holesAreBogus_cut index index
    ((cutBefore index (cutAfter index f.locals)).set index t)
    fun i hi => getD_set_ne (by omega)
  simp only [StateT.run, setLocal]
  rw [check_true _ (by rw [hcheck]; rfl), bind_ok, if_neg (by omega)]
  rw [hf.cutNext_eq, bind_ok, hf.cutPrevious_eq (Nat.le_refl index), bind_ok]
  split
  next hsize =>
    rw [check_true _ hholes, Int.max_eq_right (by omega)]
    rfl
  next hsize =>
    rw [Int.max_eq_left (by omega)]
    rfl

theorem setLocal2_eq (hf : f.Whole) {index : Nat} (k : Wide)
    (hlt : (index : Int) < f.maxLocals - 1) :
    (setLocal2 index k.first k.second).run f = .ok ((), { f with
      locals := ((cutBefore index (cutAfter (index + 1) f.locals)).set index k.first).set
        (index + 1) k.second
      localsSize := max f.localsSize (index + 2) }) := by
  have hholes := hf.holesAreBogus_cut index (index + 1)
    (((cutBefore index (cutAfter (index + 1) f.locals)).set index k.first).set (index + 1) k.second)
    fun i hi => by rw [getD_set_ne (by omega), getD_set_ne (by omega)]
  simp only [StateT.run, setLocal2]
  rw [check_true _ (by cases k <;> rfl), bind_ok, check_true _ (by cases k <;> rfl), bind_ok,
    if_neg (by omega)]
  rw [hf.cutNext_eq, bind_ok, hf.cutPrevious_eq (Nat.le_succ index), bind_ok]
  split
  next hsize =>
    rw [check_true _ hholes, Int.max_eq_right (by omega)]
    rfl
  next hsize =>
    rw [Int.max_eq_left (by omega)]
    rfl

theorem setLocal (hf : f.Whole) {index : Nat} {t : VerificationType} (hcat : t.isCategory1 = true)
    (hlt : (index : Int) < f.maxLocals) :
    Whole { f with
      locals := (cutBefore index (cutAfter index f.locals)).set index t
      localsSize := max f.localsSize (index + 1) } where
  length_locals := by simpa using hf.length_locals
  length_stack := hf.length_stack
  maxLocals_lt := hf.maxLocals_lt
  maxStack_lt := hf.maxStack_lt
  localsSize_nonneg := Int.le_trans hf.localsSize_nonneg (Int.le_max_left _ _)
  localsSize_le := Int.max_le.2 ⟨hf.localsSize_le, hlt⟩
  stackSize_nonneg := hf.stackSize_nonneg
  stackSize_le := hf.stackSize_le
  paired := hf.paired.setLocal hcat
  unused i hi := by
    obtain ⟨hsize, hindex⟩ := Int.max_le.1 hi
    rw [getD_set_ne (by omega)]
    exact getD_cutBefore index (getD_cutAfter index (hf.unused i hsize))

theorem setLocal2 (hf : f.Whole) {index : Nat} (k : Wide)
    (hlt : (index : Int) < f.maxLocals - 1) :
    Whole { f with
      locals := ((cutBefore index (cutAfter (index + 1) f.locals)).set index k.first).set
        (index + 1) k.second
      localsSize := max f.localsSize (index + 2) } where
  length_locals := by simpa using hf.length_locals
  length_stack := hf.length_stack
  maxLocals_lt := hf.maxLocals_lt
  maxStack_lt := hf.maxStack_lt
  localsSize_nonneg := Int.le_trans hf.localsSize_nonneg (Int.le_max_left _ _)
  localsSize_le := Int.max_le.2 ⟨hf.localsSize_le, by dsimp only; omega⟩
  stackSize_nonneg := hf.stackSize_nonneg
  stackSize_le := hf.stackSize_le
  paired := hf.paired.setLocal2 (by have := hf.length_locals; omega) k
  unused i hi := by
    obtain ⟨hsize, hindex⟩ := Int.max_le.1 hi
    rw [getD_set_ne (by omega), getD_set_ne (by omega)]
    exact getD_cutBefore index (getD_cutAfter (index + 1) (hf.unused i hsize))

/-! ## The other updates -/

/-- What is done to the stack alone -/
theorem withStack (hf : f.Whole) {size : Int} {stack : List VerificationType} (hnonneg : 0 ≤ size)
    (hle : size ≤ f.maxStack) (hlength : stack.length = f.stack.length) :
    Whole { f with stackSize := size, stack := stack } :=
  { hf with
    length_stack := by rw [hlength]; exact hf.length_stack
    stackSize_nonneg := hnonneg
    stackSize_le := hle }

end Whole

theorem length_clear (product : Bool) (stack : List VerificationType) (i : Int) :
    (clear product stack i).length = stack.length := by
  unfold clear
  split
  · rfl
  · exact List.length_set

theorem ensures_pushStack (t : VerificationType) : Ensures Whole (pushStack t) fun _ => Whole := by
  intro f hf x f' hrun
  simp only [StateT.run, pushStack] at hrun
  obtain ⟨_, -, hrun⟩ := bind_eq_ok hrun
  split at hrun
  · cases hrun
  next hlt =>
    cases hrun
    have := hf.stackSize_nonneg
    exact hf.withStack (by omega) (by omega) (by simp)

theorem ensures_pushStack2 (t₁ t₂ : VerificationType) :
    Ensures Whole (pushStack2 t₁ t₂) fun _ => Whole := by
  intro f hf x f' hrun
  simp only [StateT.run, pushStack2] at hrun
  obtain ⟨_, -, hrun⟩ := bind_eq_ok hrun
  obtain ⟨_, -, hrun⟩ := bind_eq_ok hrun
  split at hrun
  · cases hrun
  next hlt =>
    cases hrun
    have := hf.stackSize_nonneg
    exact hf.withStack (by omega) (by omega) (by simp)

section

variable (product : Bool)

theorem ensures_popAny : Ensures Whole (popAny product) fun _ => Whole := by
  intro f hf x f' hrun
  simp only [StateT.run, popAny] at hrun
  split at hrun
  · cases hrun
  next hpos =>
    cases hrun
    have := hf.stackSize_le
    exact hf.withStack (by omega) (by omega) (length_clear _ _ _)

variable {K : Type} [DecidableEq K] (h : ClassHierarchy K)

theorem ensures_popStackEx (t : VerificationType) :
    Ensures Whole (popStackEx product h t) fun _ => Whole := by
  intro f hf x f' hrun
  simp only [StateT.run, popStackEx] at hrun
  split at hrun
  · cases hrun
  next hpos =>
    obtain ⟨subtype, -, hrun⟩ := bind_eq_ok hrun
    cases subtype with
    | false => cases hrun
    | true =>
      cases hrun
      have := hf.stackSize_le
      exact hf.withStack (by omega) (by omega) (length_clear _ _ _)

theorem ensures_popStack (t : VerificationType) :
    Ensures Whole (popStack product h t) fun _ => Whole := by
  intro f hf x f' hrun
  simp only [StateT.run, popStack] at hrun
  split at hrun
  next hne =>
    obtain ⟨subtype, -, hrun⟩ := bind_eq_ok hrun
    cases subtype with
    | false => exact ensures_popStackEx product h t f hf x f' hrun
    | true =>
      cases hrun
      have hnonneg := hf.stackSize_nonneg
      have hle := hf.stackSize_le
      exact hf.withStack (by omega) (by omega) (length_clear _ _ _)
  next => exact ensures_popStackEx product h t f hf x f' hrun

theorem ensures_popStack2 (t₁ t₂ : VerificationType) :
    Ensures Whole (popStack2 product h t₁ t₂) fun _ => Whole := by
  intro f hf x f' hrun
  have hslow : ∀ {x : Unit} {f' : FrameArrays},
      (popStackEx product h t₁ f >>= fun r => popStackEx product h t₂ r.2 >>= fun r' =>
        .ok ((), r'.2)) = Except.ok (x, f') → f'.Whole := by
    intro x f' hrun
    obtain ⟨⟨t, f₁⟩, hfirst, hrun⟩ := bind_eq_ok hrun
    obtain ⟨⟨t', f₂⟩, hsecond, hrun⟩ := bind_eq_ok hrun
    cases hrun
    exact ensures_popStackEx product h t₂ f₁ (ensures_popStackEx product h t₁ f hf t f₁ hfirst)
      t' f₂ hsecond
  simp only [StateT.run, popStack2] at hrun
  obtain ⟨_, -, hrun⟩ := bind_eq_ok hrun
  obtain ⟨_, -, hrun⟩ := bind_eq_ok hrun
  split at hrun
  next htwo =>
    obtain ⟨subtype₁, -, hrun⟩ := bind_eq_ok hrun
    obtain ⟨subtype₂, -, hrun⟩ := bind_eq_ok hrun
    split at hrun
    next =>
      cases hrun
      have hle := hf.stackSize_le
      exact hf.withStack (by omega) (by omega) (by rw [length_clear, length_clear])
    next => exact hslow hrun
  next => exact hslow hrun

theorem ensures_getLocal (index : Nat) (t : VerificationType) :
    Ensures Whole (getLocal h index t) fun _ => Whole := by
  intro f hf x f' hrun
  simp only [StateT.run, getLocal] at hrun
  split at hrun
  · cases hrun
  next hlt =>
    obtain ⟨subtype, -, hrun⟩ := bind_eq_ok hrun
    cases subtype with
    | false => cases hrun
    | true =>
      cases hrun
      have hnonneg := hf.localsSize_nonneg
      have hle := hf.localsSize_le
      refine { hf with localsSize_nonneg := ?_, localsSize_le := ?_, unused := ?_ }
      · dsimp only
        split <;> omega
      · dsimp only
        split <;> omega
      · refine hf.unused.mono ?_
        dsimp only
        split <;> omega

end

/-! ## Objects -/

theorem mapFirst_eq {n : Int} {g : VerificationType → VerificationType}
    {ts : List VerificationType} (hlength : (ts.length : Int) = n) :
    mapFirst n g ts = ts.map g := by
  rw [mapFirst, ← hlength, Int.toNat_natCast, List.take_length, List.drop_length, List.append_nil]

theorem length_mapFirst (n : Int) (g : VerificationType → VerificationType)
    (ts : List VerificationType) : (mapFirst n g ts).length = ts.length := by
  simp only [mapFirst, List.length_append, List.length_map, List.length_take, List.length_drop]
  omega

/-- An object whose `<init>` was called gets the type of its class. -/
theorem ensures_initializeObject (bci : Nat) (name : List UInt8) :
    Ensures Whole (initializeObject (uninitialized bci) (reference name)) fun _ => Whole := by
  intro f hf x f' hrun
  cases hrun
  have hbogus (t : VerificationType) (ht : t = bogus) :
      replace (uninitialized bci) (reference name) t = bogus := by
    rw [ht]
    rfl
  refine { hf with length_locals := ?_, length_stack := ?_, paired := ?_, unused := ?_ }
  · rw [length_mapFirst]
    exact hf.length_locals
  · rw [length_mapFirst]
    exact hf.length_stack
  · rw [mapFirst_eq hf.length_locals]
    refine hf.paired.map ?_ ?_
    · intro t hcat
      unfold replace
      split
      · rfl
      · exact hcat
    · intro t hcat
      unfold replace
      split
      next heq =>
        rw [heq] at hcat
        cases hcat
      next => rfl
  · intro i hi
    have hunused := hf.unused i hi
    dsimp only
    rw [mapFirst_eq hf.length_locals]
    rw [List.getD_eq_getElem?_getD] at hunused ⊢
    rw [List.getElem?_map]
    cases hget : f.locals[i]? with
    | none => rfl
    | some t =>
      rw [hget] at hunused
      exact hbogus t hunused

/-! ## Frames of the table -/

end FrameArrays

/-- A frame of the table for a method with these limits. -/
structure StackMapFrame.Fits (maxLocals maxStack : Int) (frame : StackMapFrame) : Prop where
  locals_le : (frame.locals.length : Int) ≤ maxLocals
  stack_le : (frame.stack.length : Int) ≤ maxStack
  paired : PairedLocals frame.locals

/-- Halves are not bogus. -/
theorem getElem?_append_bogus (ts : List VerificationType) {rest : List VerificationType}
    (hrest : BogusFrom 0 rest) (i : Nat) {t : VerificationType} (hcat : t.isCategory1 = false) :
    (ts ++ rest)[i]? = some t ↔ ts[i]? = some t := by
  by_cases hlt : i < ts.length
  · rw [List.getElem?_append_left hlt]
  · have hbogus := hrest (i - ts.length) (Int.natCast_nonneg _)
    rw [List.getElem?_append_right (by omega), List.getElem?_eq_none (by omega : ts.length ≤ i)]
    refine iff_of_false (fun hi => ?_) (fun hi => by cases hi)
    rw [List.getD_eq_getElem?_getD, hi] at hbogus
    cases hbogus
    cases hcat

theorem pairedLocals_append_bogus {ts rest : List VerificationType} (hrest : BogusFrom 0 rest) :
    PairedLocals (ts ++ rest) ↔ PairedLocals ts := by
  have hfirst (i : Nat) (k : Wide) := getElem?_append_bogus ts hrest i k.isCategory1_first
  have hsecond (i : Nat) (k : Wide) := getElem?_append_bogus ts hrest i k.isCategory1_second
  constructor
  · intro hpaired
    refine ⟨fun {i k} hi => ?_, fun {i k} hi => ?_⟩
    · exact (hsecond _ k).1 (hpaired.second_of_first ((hfirst i k).2 hi))
    · obtain ⟨j, rfl, hj⟩ := hpaired.first_of_second ((hsecond i k).2 hi)
      exact ⟨j, rfl, (hfirst j k).1 hj⟩
  · intro hpaired
    refine ⟨fun {i k} hi => ?_, fun {i k} hi => ?_⟩
    · exact (hsecond _ k).2 (hpaired.second_of_first ((hfirst i k).1 hi))
    · obtain ⟨j, rfl, hj⟩ := hpaired.first_of_second ((hsecond i k).1 hi)
      exact ⟨j, rfl, (hfirst j k).2 hj⟩

namespace FrameArrays

theorem copy_eq {src dst : List VerificationType} {n : Int} (hn : (src.length : Int) = n) :
    copy src dst n = src ++ dst.drop src.length := by
  rw [copy, ← hn, Int.toNat_natCast, List.take_length]

/-- What is not bogus lies in front of both sizes, when none shrinks. -/
theorem resetIfShrinks {f : FrameArrays} (hf : f.Whole) (lsize ssize : Int) :
    ∃ locals stack : List VerificationType,
      (if lsize < f.localsSize ∨ ssize < f.stackSize then f.reset else f) =
        { f with locals := locals, stack := stack } ∧
      locals.length = f.locals.length ∧ stack.length = f.stack.length ∧
      BogusFrom lsize locals := by
  split
  next =>
    refine ⟨_, _, rfl, length_mapFirst _ _ _, length_mapFirst _ _ _, ?_⟩
    rw [mapFirst_eq hf.length_locals, List.map_const']
    exact .replicate _ _
  next hshrinks => exact ⟨_, _, rfl, rfl, rfl, hf.unused.mono (by omega)⟩

/-- The elements of the frame of the table, and those of the arrays behind them. -/
theorem update_eq {f : FrameArrays} (hf : f.Whole) {frame : StackMapFrame}
    (hframe : frame.Fits f.maxLocals f.maxStack) :
    ∃ locals stack : List VerificationType, f.update frame = { f with
        localsSize := frame.locals.length
        stackSize := frame.stack.length
        locals := frame.locals ++ locals.drop frame.locals.length
        stack := frame.stack ++ stack.drop frame.stack.length
        flagThisUninit := frame.flagThisUninit } ∧
      locals.length = f.locals.length ∧ stack.length = f.stack.length ∧
      BogusFrom frame.locals.length locals := by
  obtain ⟨locals, stack, hreset, hlocals, hstack, hbogus⟩ :=
    resetIfShrinks hf frame.locals.length frame.stack.length
  refine ⟨locals, stack, ?_, hlocals, hstack, hbogus⟩
  have hmaxLocals := hf.maxLocals_lt
  have hmaxStack := hf.maxStack_lt
  have hlocalsLe := hframe.locals_le
  have hstackLe := hframe.stack_le
  have hlsize : (UInt16.ofNat frame.locals.length).toNat = frame.locals.length :=
    UInt16.toNat_ofNat_of_lt' (by show _ < 65536; omega)
  have hssize : (UInt16.ofNat frame.stack.length).toNat = frame.stack.length :=
    UInt16.toNat_ofNat_of_lt' (by show _ < 65536; omega)
  simp only [update, hreset, setLocalsSize, copyLocals, setStackSize, copyStack, hlsize, hssize,
    Int.lt_irrefl, if_false, copy_eq]

theorem Whole.update {f : FrameArrays} (hf : f.Whole) {frame : StackMapFrame}
    (hframe : frame.Fits f.maxLocals f.maxStack) : (f.update frame).Whole := by
  obtain ⟨locals, stack, hupdate, hlocals, hstack, hbogus⟩ := update_eq hf hframe
  have hlengthLocals := hf.length_locals
  have hlengthStack := hf.length_stack
  have hlocalsLe := hframe.locals_le
  have hstackLe := hframe.stack_le
  rw [hupdate]
  refine {
    length_locals := ?_, length_stack := ?_, maxLocals_lt := hf.maxLocals_lt,
    maxStack_lt := hf.maxStack_lt, localsSize_nonneg := Int.natCast_nonneg _,
    localsSize_le := hlocalsLe, stackSize_nonneg := Int.natCast_nonneg _,
    stackSize_le := hstackLe, paired := ?_, unused := ?_ }
  · simp only [List.length_append, List.length_drop, hlocals]
    omega
  · simp only [List.length_append, List.length_drop, hstack]
    omega
  · refine (pairedLocals_append_bogus fun i _ => ?_).2 hframe.paired
    have := hbogus (frame.locals.length + i) (by omega)
    rwa [List.getD_eq_getElem?_getD, List.getElem?_drop, ← List.getD_eq_getElem?_getD]
  · intro i hi
    have hle : frame.locals.length ≤ i := Int.ofNat_le.1 hi
    have := hbogus i hi
    rwa [List.getD_eq_getElem?_getD, List.getElem?_append_right hle, List.getElem?_drop,
      Nat.add_sub_cancel' hle, ← List.getD_eq_getElem?_getD]

theorem matchStackmap_whole {K : Type} [DecidableEq K] (h : ClassHierarchy K)
    {table : List StackMapFrame} {frameIndex : Int} {doMatch doUpdate b : Bool}
    {f f' : FrameArrays} (hf : f.Whole)
    (htable : ∀ frame ∈ table, frame.Fits f.maxLocals f.maxStack)
    (hrun : (matchStackmap h table frameIndex doMatch doUpdate).run f = .ok (b, f')) :
    f'.Whole := by
  simp only [StateT.run, matchStackmap] at hrun
  split at hrun
  · cases hrun
  next hindex =>
    obtain ⟨result, -, hrun⟩ := bind_eq_ok hrun
    cases hrun
    split
    next =>
      refine hf.update (htable _ ?_)
      rw [List.getD_eq_getElem _ _ (by omega)]
      exact List.getElem_mem _
    next => exact hf

/-! ## The arguments -/

theorem storeTypes_eq (ts : List VerificationType) (before : List VerificationType) (n : Nat) :
    storeTypes (before ++ List.replicate (ts.length + n) bogus) before.length ts =
      before ++ ts ++ List.replicate n bogus := by
  induction ts generalizing before with
  | nil => simp [storeTypes]
  | cons t ts ih =>
    have hset : (before ++ List.replicate ((t :: ts).length + n) bogus).set before.length t =
        before ++ [t] ++ List.replicate (ts.length + n) bogus := by
      rw [List.set_append_right _ _ (Nat.le_refl _), Nat.sub_self, List.length_cons,
        Nat.add_right_comm, List.replicate_succ, List.set_cons_zero, List.append_assoc]
      rfl
    have hlength : before.length + 1 = (before ++ [t]).length := by simp
    rw [storeTypes, hset, hlength, ih]
    simp

theorem storeArguments_eq (args : List JavaType) (before : List VerificationType) (n : Nat) :
    storeArguments (before ++
        List.replicate ((args.flatMap (·.toVerificationTypes)).length + n) bogus)
          before.length args =
      (before ++ args.flatMap (·.toVerificationTypes) ++ List.replicate n bogus,
        before.length + (args.flatMap (·.toVerificationTypes)).length) := by
  induction args generalizing before with
  | nil => simp [storeArguments]
  | cons type args ih =>
    have hlength : before.length + type.toVerificationTypes.length =
        (before ++ type.toVerificationTypes).length := by simp
    rw [storeArguments, List.flatMap_cons, List.length_append, Nat.add_assoc, storeTypes_eq,
      hlength, ih]
    simp [Nat.add_assoc]

section

variable {K : Type} {v : ClassVerifier K} {m : MethodCode}

/-- The frame at the start of the method, with its arguments. -/
theorem setLocalsFromArg_eq (maxLocals maxStack : UInt16) (hmax : m.maxLocals = maxLocals.toNat) :
    (init maxLocals maxStack).setLocalsFromArg v m =
      (m.signature.returnType, { init maxLocals maxStack with
        localsSize := (v.argumentTypes m).length
        locals := v.argumentTypes m ++
          List.replicate (m.maxLocals - (v.argumentTypes m).length) bogus
        flagThisUninit := (v.initialFrame m).flagThisUninit }) := by
  have hle := m.args_le
  have hflag : (init maxLocals maxStack).flagThisUninit = false := rfl
  have hstore (before : List VerificationType)
      (hbefore : before.length + m.signature.argTypes.length ≤ m.maxLocals) :
      storeArguments (before ++ List.replicate (maxLocals.toNat - before.length) bogus)
          before.length m.signature.args =
        (before ++ m.signature.argTypes ++
          List.replicate (m.maxLocals - (before ++ m.signature.argTypes).length) bogus,
          (before ++ m.signature.argTypes).length) := by
    rw [show maxLocals.toNat - before.length = m.signature.argTypes.length +
      (m.maxLocals - (before ++ m.signature.argTypes).length) by rw [List.length_append]; omega]
    exact (storeArguments_eq _ _ _).trans (by rw [List.length_append]; rfl)
  have hone (t : VerificationType) (hpos : 1 ≤ m.maxLocals) :
      (init maxLocals maxStack).locals.set 0 t =
        [t] ++ List.replicate (maxLocals.toNat - [t].length) bogus := by
    obtain ⟨n, hn⟩ : ∃ n, maxLocals.toNat = n + 1 := ⟨maxLocals.toNat - 1, by omega⟩
    simp [init, hn, List.replicate_succ]
  unfold setLocalsFromArg ClassVerifier.argumentTypes ClassVerifier.initialFrame
  cases hstatic : m.isStatic with
  | true =>
    rw [hstatic] at hle
    have := hstore [] (by simpa using hle)
    simp only [List.nil_append, List.length_nil, Nat.sub_zero] at this
    simp [init, this]
  | false =>
    rw [hstatic] at hle
    by_cases hinit : m.isObjectInitializer ∧ v.className ≠ javaLangObject
    · have := hstore [uninitializedThis] hle
      rw [← hone _ (by simp at hle; omega), List.length_singleton] at this
      simp [hinit, this, hflag]
    · have := hstore [v.currentType] hle
      rw [← hone _ (by simp at hle; omega), List.length_singleton] at this
      simp [hinit, this, hflag]

theorem whole_setLocalsFromArg (maxLocals maxStack : UInt16)
    (hmax : m.maxLocals = maxLocals.toNat) :
    Whole ((init maxLocals maxStack).setLocalsFromArg v m).2 := by
  have hle := v.length_argumentTypes m
  have hlocals := maxLocals.toNat_lt
  have hstack := maxStack.toNat_lt
  rw [setLocalsFromArg_eq maxLocals maxStack hmax]
  exact {
    length_locals := by
      simp only [init, List.length_append, List.length_replicate]
      omega
    length_stack := by simp [init]
    maxLocals_lt := by simp only [init]; omega
    maxStack_lt := by simp only [init]; omega
    localsSize_nonneg := Int.natCast_nonneg _
    localsSize_le := by simp only [init]; omega
    stackSize_nonneg := Int.le_refl 0
    stackSize_le := Int.natCast_nonneg _
    paired := by
      dsimp only
      rw [← v.argumentFrame_slots m]
      exact pairedLocals_slots (v.argumentFrame_slotTypes m) (.replicate_bogus _)
    unused := fun i hi => by
      have hi : (v.argumentTypes m).length ≤ i := Int.ofNat_le.1 hi
      rw [List.getD_eq_getElem?_getD, List.getElem?_append_right hi, List.getElem?_replicate]
      split <;> rfl }

variable [DecidableEq K]

/-- The frame while the bytecodes of a method are checked: what its callers store in a local takes
one slot, or is a long or double with its second half. -/
inductive Reachable (product : Bool) (v : ClassVerifier K) (m : MethodCode) : FrameArrays → Prop
  | start (maxLocals maxStack : UInt16) (hmax : m.maxLocals = maxLocals.toNat) :
      Reachable product v m ((init maxLocals maxStack).setLocalsFromArg v m).2
  | setLocal {f f' : FrameArrays} (index : Nat) (t : VerificationType)
      (hcat : t.isCategory1 = true) (hf : Reachable product v m f)
      (hrun : (setLocal index t).run f = .ok ((), f')) : Reachable product v m f'
  | setLocal2 {f f' : FrameArrays} (index : Nat) (k : Wide) (hf : Reachable product v m f)
      (hrun : (setLocal2 index k.first k.second).run f = .ok ((), f')) : Reachable product v m f'
  | getLocal {f f' : FrameArrays} (index : Nat) (t top : VerificationType)
      (hf : Reachable product v m f)
      (hrun : (getLocal v.hierarchy index t).run f = .ok (top, f')) : Reachable product v m f'
  | initializeObject {f f' : FrameArrays} (bci : Nat) (name : List UInt8)
      (hf : Reachable product v m f)
      (hrun : (initializeObject (uninitialized bci) (reference name)).run f = .ok ((), f')) :
      Reachable product v m f'
  | pushStack {f f' : FrameArrays} (t : VerificationType) (hf : Reachable product v m f)
      (hrun : (pushStack t).run f = .ok ((), f')) : Reachable product v m f'
  | pushStack2 {f f' : FrameArrays} (t₁ t₂ : VerificationType) (hf : Reachable product v m f)
      (hrun : (pushStack2 t₁ t₂).run f = .ok ((), f')) : Reachable product v m f'
  | popAny {f f' : FrameArrays} (top : VerificationType) (hf : Reachable product v m f)
      (hrun : (popAny product).run f = .ok (top, f')) : Reachable product v m f'
  | popStack {f f' : FrameArrays} (t top : VerificationType) (hf : Reachable product v m f)
      (hrun : (popStack product v.hierarchy t).run f = .ok (top, f')) : Reachable product v m f'
  | popStack2 {f f' : FrameArrays} (t₁ t₂ : VerificationType) (hf : Reachable product v m f)
      (hrun : (popStack2 product v.hierarchy t₁ t₂).run f = .ok ((), f')) :
      Reachable product v m f'
  | matchStackmap {f f' : FrameArrays} (table : List StackMapFrame) (frameIndex : Int)
      (doMatch doUpdate b : Bool) (hf : Reachable product v m f)
      (htable : ∀ frame ∈ table, frame.Fits f.maxLocals f.maxStack)
      (hrun : (matchStackmap v.hierarchy table frameIndex doMatch doUpdate).run f = .ok (b, f')) :
      Reachable product v m f'

theorem ensures_setLocal (index : Nat) {t : VerificationType} (hcat : t.isCategory1 = true) :
    Ensures Whole (FrameArrays.setLocal index t) fun _ => Whole := by
  intro f hf x f' hrun
  cases hcheck : t.isCheck with
  | true =>
    simp [StateT.run, FrameArrays.setLocal, hcheck, check, bind, Except.bind] at hrun
  | false =>
    by_cases hlt : (index : Int) < f.maxLocals
    · rw [hf.setLocal_eq hcheck hlt] at hrun
      cases hrun
      exact hf.setLocal hcat hlt
    · simp only [StateT.run, FrameArrays.setLocal] at hrun
      rw [check_true _ (by rw [hcheck]; rfl), bind_ok, if_pos (by omega)] at hrun
      cases hrun

theorem ensures_setLocal2 (index : Nat) (k : Wide) :
    Ensures Whole (FrameArrays.setLocal2 index k.first k.second) fun _ => Whole := by
  intro f hf x f' hrun
  by_cases hlt : (index : Int) < f.maxLocals - 1
  · rw [hf.setLocal2_eq k hlt] at hrun
    cases hrun
    exact hf.setLocal2 k hlt
  · simp only [StateT.run, FrameArrays.setLocal2] at hrun
    rw [check_true _ (by cases k <;> rfl), bind_ok, check_true _ (by cases k <;> rfl), bind_ok,
      if_pos (by omega)] at hrun
    cases hrun

theorem Reachable.whole {product : Bool} {f : FrameArrays} (hf : Reachable product v m f) :
    f.Whole := by
  induction hf with
  | start maxLocals maxStack hmax => exact whole_setLocalsFromArg maxLocals maxStack hmax
  | setLocal index t hcat _ hrun ih => exact ensures_setLocal index hcat _ ih _ _ hrun
  | setLocal2 index k _ hrun ih => exact ensures_setLocal2 index k _ ih _ _ hrun
  | getLocal index t top _ hrun ih => exact ensures_getLocal v.hierarchy index t _ ih _ _ hrun
  | initializeObject bci name _ hrun ih => exact ensures_initializeObject bci name _ ih _ _ hrun
  | pushStack t _ hrun ih => exact ensures_pushStack t _ ih _ _ hrun
  | pushStack2 t₁ t₂ _ hrun ih => exact ensures_pushStack2 t₁ t₂ _ ih _ _ hrun
  | popAny top _ hrun ih => exact ensures_popAny product _ ih _ _ hrun
  | popStack t top _ hrun ih => exact ensures_popStack product v.hierarchy t _ ih _ _ hrun
  | popStack2 t₁ t₂ _ hrun ih => exact ensures_popStack2 product v.hierarchy t₁ t₂ _ ih _ _ hrun
  | matchStackmap table frameIndex doMatch doUpdate b _ htable hrun ih =>
    exact matchStackmap_whole v.hierarchy ih htable hrun

end

/-- Values of two slots are whole, and the stores pass their assertions. -/
structure KeepsPairs (f : FrameArrays) : Prop where
  long_iff : ∀ i, f.locals[i]? = some long ↔ f.locals[i + 1]? = some long2
  double_iff : ∀ i, f.locals[i]? = some double ↔ f.locals[i + 1]? = some double2
  first_ne_second : ∀ k : Wide, f.locals[0]? ≠ some k.second
  unused : ∀ i : Nat, f.localsSize ≤ i → (i : Int) < f.maxLocals → f.locals[i]? = some bogus
  localsSize_le : f.localsSize ≤ f.maxLocals
  stackSize_nonneg : 0 ≤ f.stackSize
  stackSize_le : f.stackSize ≤ f.maxStack
  setLocal_holds : ∀ (index : Nat) (t : VerificationType) (a : FrameAssertion),
    t.isCategory1 = true → t.isCheck = false → (setLocal index t).run f ≠ .error (.assertion a)
  setLocal2_holds : ∀ (index : Nat) (k : Wide) (a : FrameAssertion),
    (setLocal2 index k.first k.second).run f ≠ .error (.assertion a)

theorem Whole.pair_iff {f : FrameArrays} (hf : f.Whole) (k : Wide) (i : Nat) :
    f.locals[i]? = some k.first ↔ f.locals[i + 1]? = some k.second := by
  refine ⟨hf.paired.second_of_first, fun hi => ?_⟩
  obtain ⟨j, hj, hfirst⟩ := hf.paired.first_of_second hi
  obtain rfl := Nat.succ.inj hj
  exact hfirst

/-- Over any run the frame keeps values of two slots whole. -/
theorem keepsPairs_of_reachable {K : Type} [DecidableEq K] {product : Bool} {v : ClassVerifier K}
    {m : MethodCode} {f : FrameArrays} (hf : Reachable product v m f) : f.KeepsPairs := by
  have hwhole := hf.whole
  exact {
    long_iff := hwhole.pair_iff .long
    double_iff := hwhole.pair_iff .double
    first_ne_second := fun k hk => by
      obtain ⟨j, hj, -⟩ := hwhole.paired.first_of_second hk
      cases hj
    unused := fun i hi hlt => by
      have hlength := hwhole.length_locals
      have hget := hwhole.unused i hi
      rw [List.getD_eq_getElem _ _ (by omega)] at hget
      rw [List.getElem?_eq_getElem (by omega), hget]
    localsSize_le := hwhole.localsSize_le
    stackSize_nonneg := hwhole.stackSize_nonneg
    stackSize_le := hwhole.stackSize_le
    setLocal_holds := fun index t a hcat hcheck hfail => by
      by_cases hlt : (index : Int) < f.maxLocals
      · rw [hwhole.setLocal_eq hcheck hlt] at hfail
        cases hfail
      · simp only [StateT.run, setLocal] at hfail
        rw [check_true _ (by rw [hcheck]; rfl), bind_ok, if_pos (by omega)] at hfail
        cases hfail
    setLocal2_holds := fun index k a hfail => by
      by_cases hlt : (index : Int) < f.maxLocals - 1
      · rw [hwhole.setLocal2_eq k hlt] at hfail
        cases hfail
      · simp only [StateT.run, setLocal2] at hfail
        rw [check_true _ (by cases k <;> rfl), bind_ok, check_true _ (by cases k <;> rfl), bind_ok,
          if_pos (by omega)] at hfail
        cases hfail }

/-- A static method with a long as its argument. -/
def longMethod : MethodCode where
  name := [0x66]
  isStatic := true
  signature := ⟨[.long], none⟩
  maxStack := 2
  maxLocals := 4
  args_le := by decide

/-- A double over the second half of the argument. -/
def overwritten : FrameArrays where
  localsSize := 3
  stackSize := 0
  maxLocals := 4
  maxStack := 2
  flagThisUninit := false
  locals := [bogus, double, double2, bogus]
  stack := [bogus, bogus]

theorem keepsPairs_overwritten : overwritten.KeepsPairs :=
  keepsPairs_of_reachable
    (.setLocal2 1 .double (.start 4 2 rfl : Reachable true .intArrayUser longMethod _) rfl)

end FrameArrays
end HotSpot
