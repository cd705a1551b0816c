import HotSpot.Classfile.FrameArraysSound

/-! # Chopped locals

`chop` reads the last local before it looks whether there is one. Where the previous frame has a
local it stays inside the array, and what it returns is right.
-/

namespace HotSpot

open VerificationType

namespace StackMapReader

/-! ## What is read -/

/-- The positions of the locals that `chop` reads. -/
def chopReadsFrom (locals : List VerificationType) (chops : Nat) : Nat → Nat → Int → List Int
  | 0, _, _ => []
  | count + 1, i, pos =>
    let local_ := if pos < 0 then .bogus else locals.getD pos.toNat .bogus
    let next := if local_.isCategory2Second then pos - 2 else pos - 1
    pos :: if next < 0 ∧ i + 1 < chops then [] else chopReadsFrom locals chops count (i + 1) next

def chopReads (locals : List VerificationType) (chops : Nat) : List Int :=
  chopReadsFrom locals chops chops 0 (locals.length - 1)

/-- Every local is read at a place that it has, and the slots of that many values are taken away if
there are so many of them. -/
structure ChopsExactly (locals : List VerificationType) (chops : Nat) : Prop where
  inside : ∀ pos ∈ chopReads locals chops, 0 ≤ pos ∧ pos < locals.length
  left : ∀ types : List VerificationType, (∀ t ∈ types, t.isCategory2Second = false) →
    locals = types.flatMap slots →
      if chops ≤ types.length then
        chop locals chops = ((types.take (types.length - chops)).flatMap slots).length
      else chop locals chops < 0

/-- The locals are values of one slot, or of two. -/
def Slotted (locals : List VerificationType) : Prop :=
  ∃ types : List VerificationType, (∀ t ∈ types, t.isCategory2Second = false) ∧
    locals = types.flatMap slots

theorem chopReadsFrom_inside {chops count i : Nat} {front back : List VerificationType} {pos : Int}
    (hfront : ∀ t ∈ front, t.isCategory2Second = false) (hi : i + count = chops)
    (hpos : pos = (front.flatMap slots).length - 1) (hne : front ≠ []) :
    ∀ at_ ∈ chopReadsFrom (front.flatMap slots ++ back) chops count i pos,
      0 ≤ at_ ∧ at_ < (front.flatMap slots).length := by
  induction count generalizing i front back pos with
  | zero => exact fun _ hat => absurd hat List.not_mem_nil
  | succ count ih =>
    obtain ⟨front, t, rfl⟩ := (List.eq_nil_or_concat' front).resolve_left hne
    have hlength : ((front ++ [t]).flatMap slots).length =
        (front.flatMap slots).length + (slots t).length := by simp
    have hslots := List.length_pos_iff.2 (slots_ne_nil t)
    have hround := chop_round front t (hfront t (by simp)) back pos hpos
    have hrest : (front ++ [t]).flatMap slots ++ back =
        front.flatMap slots ++ (slots t ++ back) := by simp
    intro at_ hat
    simp only [chopReadsFrom, hround] at hat
    rcases List.mem_cons.mp hat with rfl | hat
    · omega
    · split at hat
      next => cases hat
      next hgo =>
        rcases List.eq_nil_or_concat' front with rfl | ⟨front', u, rfl⟩
        · -- with no local left this was the last one to be chopped
          obtain rfl : count = 0 := by
            simp only [List.flatMap_nil, List.length_nil] at hgo
            omega
          cases hat
        · rw [hrest] at hat
          have hinside := ih (fun t ht => hfront t (List.mem_append_left _ ht)) (by omega) rfl
            (by simp) at_ hat
          omega

/-! ## Previous frames -/

theorem slotted_append {locals locals' : List VerificationType} (h : Slotted locals)
    (h' : Slotted locals') : Slotted (locals ++ locals') := by
  obtain ⟨types, htypes, rfl⟩ := h
  obtain ⟨types', htypes', rfl⟩ := h'
  exact ⟨types ++ types', fun t ht => (List.mem_append.mp ht).elim (htypes t) (htypes' t),
    List.flatMap_append.symm⟩

theorem slotted_slots {t : VerificationType} (ht : t.isCategory2Second = false) :
    Slotted (slots t) :=
  ⟨[t], fun _ hu => List.mem_singleton.mp hu ▸ ht, (List.flatMap_singleton ..).symm⟩

variable (r : StackMapReader)

theorem parseVerificationType_isCategory2Second (s : StackMapStream) :
    (r.parseVerificationType s).1.isCategory2Second = false := by
  unfold parseVerificationType
  split
  split
  next =>
    dsimp only
    unfold fromTag
    split <;> rfl
  next =>
    split
    next =>
      split
      split <;> rfl
    next =>
      split
      next => rfl
      next =>
        split
        next =>
          split
          split <;> rfl
        next => rfl

theorem slotted_parseTypes (count : Nat) {types : List VerificationType} (h : Slotted types)
    (s : StackMapStream) : Slotted (r.parseTypes count types s).1 := by
  induction count generalizing types s with
  | zero => exact h
  | succ count ih =>
    rw [parseTypes]
    exact ih (slotted_append h (slotted_slots (r.parseVerificationType_isCategory2Second s))) _

/-- A frame of which the locals are values. -/
def SlottedFrame : Option StackMapFrame × StackMapStream → Prop
  | (none, _) => True
  | (some frame, _) => Slotted frame.locals

theorem slotted_sameLocals1 (offset : Nat) {pre : StackMapFrame} (hpre : Slotted pre.locals)
    (s : StackMapStream) : SlottedFrame (r.sameLocals1 offset pre s) := by
  unfold sameLocals1
  dsimp only
  split
  · trivial
  · split
    · trivial
    · exact hpre

/-- A negative number is reported. -/
theorem errors_checkSize {size : Int} (hneg : size < 0) (maxSize : Nat) (s : StackMapStream) :
    (checkSize size maxSize s).errors ≠ [] := by
  rw [checkSize, if_pos (.inl hneg)]
  exact List.append_ne_nil_of_right_ne_nil _ (by simp)

theorem slotted_chopFrame (frameType offset : Nat) {pre : StackMapFrame}
    (hpre : Slotted pre.locals) (s : StackMapStream) :
    SlottedFrame (r.chopFrame frameType offset pre s) := by
  unfold chopFrame
  dsimp only
  split
  next =>
    obtain ⟨types, htypes, hlocals⟩ := hpre
    rw [hlocals]
    have hspec := chop_spec htypes (sameExtended - frameType)
    split
    next => trivial
    next hfine =>
      have hle : sameExtended - frameType ≤ types.length := by
        by_contra hgt
        exact hfine (errors_checkSize (hspec.2 (Nat.not_le.mp hgt)) _ _)
      change Slotted ((types.flatMap slots).take _)
      rw [hspec.1 hle, Int.toNat_natCast, take_flatMap_slots]
      exact ⟨_, fun t ht => htypes t (List.mem_of_mem_take ht), rfl⟩
  next => exact hpre

theorem slotted_next {pre : StackMapFrame} (hpre : Slotted pre.locals) (first : Bool)
    (s : StackMapStream) : SlottedFrame (r.next pre first s) := by
  have hnil : Slotted [] := ⟨[], fun _ ht => absurd ht List.not_mem_nil, rfl⟩
  unfold next
  dsimp only
  split
  next => exact hpre
  next =>
    split
    next => exact r.slotted_sameLocals1 _ hpre _
    next =>
      split
      next => trivial
      next =>
        split
        next => exact r.slotted_sameLocals1 _ hpre _
        next =>
          split
          next => exact r.slotted_chopFrame _ _ hpre _
          next =>
            split
            next =>
              unfold appendFrame
              dsimp only
              split
              · trivial
              · exact slotted_append hpre (r.slotted_parseTypes _ hnil _)
            next =>
              unfold fullFrame
              dsimp only
              split
              · trivial
              · split
                · trivial
                · exact r.slotted_parseTypes _ hnil _

/-- The frames in front of which a frame is read: the one of the arguments, and those that the
reader decodes. -/
inductive PreviousFrame {K : Type} (v : ClassVerifier K) (m : MethodCode) : StackMapFrame → Prop
  | arguments (maxLocals maxStack : UInt16) (hmax : m.maxLocals = maxLocals.toNat)
      (f : FrameArrays) (hf : f = ((FrameArrays.init maxLocals maxStack).setLocalsFromArg v m).2) :
      PreviousFrame v m ⟨0, f.flagThisUninit, f.locals.take f.localsSize.toNat, []⟩
  | decoded {pre frame : StackMapFrame} {first : Bool} {s s' : StackMapStream}
      (hpre : PreviousFrame v m pre) (hnext : r.next pre first s = (some frame, s')) :
      PreviousFrame v m frame

theorem PreviousFrame.slotted {K : Type} {v : ClassVerifier K} {m : MethodCode}
    {frame : StackMapFrame} (h : PreviousFrame r v m frame) : Slotted frame.locals := by
  induction h with
  | arguments maxLocals maxStack hmax f hf =>
    rw [FrameArrays.setLocalsFromArg_eq maxLocals maxStack hmax] at hf
    rw [hf]
    refine ⟨(v.argumentFrame m).locals, fun t ht => (v.argumentFrame_slotTypes m t ht).2, ?_⟩
    change ((v.argumentTypes m ++ _).take (v.argumentTypes m).length) = _
    rw [List.take_left, v.argumentFrame_slots m]
  | @decoded pre frame first s s' _ hnext ih =>
    have hframe := r.slotted_next ih first s
    rw [hnext] at hframe
    exact hframe

/-! ## Result -/

/-- Chopping is exact where there is a local. -/
theorem chopsExactly_iff {K : Type} (v : ClassVerifier K) (m : MethodCode)
    (pre : StackMapFrame) (hpre : PreviousFrame r v m pre) (chops : Nat) (hpos : 1 ≤ chops)
    (hle : chops ≤ 3) : ChopsExactly pre.locals chops ↔ pre.locals ≠ [] := by
  obtain ⟨types, htypes, hlocals⟩ := hpre.slotted
  constructor
  · intro hexact hnil
    obtain ⟨count, rfl⟩ : ∃ count, chops = count + 1 := ⟨chops - 1, by omega⟩
    have hread := hexact.inside (-1) (by
      rw [hnil, chopReads, chopReadsFrom]
      exact List.mem_cons_self)
    omega
  · intro hne
    have hne' : types ≠ [] := fun hnil => hne (by rw [hlocals, hnil]; rfl)
    refine ⟨fun pos hat => ?_, fun types' htypes' hlocals' => ?_⟩
    · rw [hlocals] at hat ⊢
      refine @chopReadsFrom_inside _ _ _ _ [] _ htypes (Nat.zero_add chops) rfl hne' pos ?_
      rw [List.append_nil]
      exact hat
    · have hspec := chop_spec htypes' chops
      rw [hlocals']
      split
      next h => exact hspec.1 h
      next h => exact hspec.2 (Nat.not_le.mp h)

/-- The frame of a long argument, from which the long is chopped. -/
theorem chopsExactly_long : ChopsExactly [long, long2] 1 ↔ [long, long2] ≠ [] :=
  chopsExactly_iff intArgument .intArrayUser FrameArrays.longMethod ⟨0, false, [long, long2], []⟩
    (.arguments 4 2 rfl _ rfl) 1 (Nat.le_refl 1) (by decide)

/-- A static method without arguments. -/
def noArguments : MethodCode :=
  { FrameArrays.longMethod with signature := ⟨[], none⟩, args_le := by decide }

/-- The first frame of the method chops one local. -/
theorem not_chopsExactly_noArguments :
    PreviousFrame intArgument .intArrayUser noArguments ⟨0, false, [], []⟩ ∧
      chopReads [] 1 = [-1] ∧ ¬ChopsExactly [] 1 :=
  ⟨.arguments 4 2 rfl _ rfl, rfl, fun h => absurd (h.inside (-1) (by decide)).1 (by decide)⟩

end StackMapReader

end HotSpot
