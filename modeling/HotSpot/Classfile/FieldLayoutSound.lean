import Mathlib.Order.Monotone.Basic
import HotSpot.Classfile.FieldLayout

/-! # Soundness of field layout

Every field gets an offset of its own, aligned and inside the object, and the oop maps cover
exactly the oop fields.
-/

namespace HotSpot.FieldLayout

/-! ## Kinds of fields -/

/-- The kinds of nonstatic fields. -/
inductive Kind where
  | oop
  | byte
  | short
  | word
  | double
  deriving DecidableEq, Repr

/-- The kind of a nonstatic field. -/
def FieldAllocationType.kind : FieldAllocationType → Option Kind
  | .nonstaticOop => some .oop
  | .nonstaticByte => some .byte
  | .nonstaticShort => some .short
  | .nonstaticWord => some .word
  | .nonstaticDouble => some .double
  | .nonstaticAlignedDouble => some .double
  | _ => none

/-- The size of a field, in bytes. -/
def Kind.size (platform : Platform) : Kind → Nat
  | .oop => platform.heapOopSize
  | .byte => 1
  | .short => bytesPerShort
  | .word => bytesPerInt
  | .double => bytesPerLong

def Kind.count (fac : FieldAllocationCount) : Kind → Nat
  | .oop => fac.oop
  | .byte => fac.byte
  | .short => fac.short
  | .word => fac.word
  | .double => fac.double

variable {platform : Platform}

theorem count_fieldAllocationCount (types : List FieldAllocationType) (kind : Kind) :
    kind.count (fieldAllocationCount types) = types.countP (·.kind = some kind) := by
  cases kind <;>
  · simp only [Kind.count, fieldAllocationCount]
    apply List.countP_congr
    intro t _
    cases t <;> decide

/-! ## Positions -/

/-- The offset of the field number `k` of a type. -/
def Slot.position (slot : Slot) (size k : Nat) : Nat :=
  if k < slot.spaceCount then slot.spaceOffset + k * size
  else slot.next + (k - slot.spaceCount) * size

theorem Slot.position_zero (slot : Slot) (size : Nat) : slot.position size 0 = slot.offset := by
  rw [Slot.position, Slot.offset]
  split <;> simp

theorem Slot.position_advance (slot : Slot) (size k : Nat) :
    (slot.advance size).position size k = slot.position size (k + 1) := by
  rw [Slot.advance]
  split
  next hspace =>
    simp only [Slot.position]
    split_ifs
    · rw [Nat.succ_mul]
      omega
    · omega
    · omega
    · rw [show k - (slot.spaceCount - 1) = k + 1 - slot.spaceCount by omega]
  next hnone =>
    simp only [Slot.position]
    rw [if_neg (by omega), if_neg (by omega), show k + 1 - slot.spaceCount = k - slot.spaceCount + 1
      by omega, Nat.succ_mul]
    omega

/-- Fields of one kind follow each other, in the gap and after it. -/
theorem Slot.position_add_le (slot : Slot) (size : Nat) {k k' : Nat} (hlt : k < k')
    (hsame : k < slot.spaceCount → k' < slot.spaceCount) :
    slot.position size k + size ≤ slot.position size k' := by
  simp only [Slot.position]
  split
  next hspace =>
    have hmul := Nat.mul_le_mul_right size hlt
    rw [Nat.succ_mul] at hmul
    rw [if_pos (hsame hspace)]
    omega
  next hnext =>
    have hmul := Nat.mul_le_mul_right size
      (show k - slot.spaceCount + 1 ≤ k' - slot.spaceCount by omega)
    rw [Nat.succ_mul] at hmul
    rw [if_neg (by omega)]
    omega

/-- The slot of a kind; doubles do not go into the gap. -/
def Cursors.slot (c : Cursors) : Kind → Slot
  | .oop => c.oop
  | .byte => c.byte
  | .short => c.short
  | .word => c.word
  | .double => ⟨0, 0, c.nextDouble⟩

theorem realOffset_eq (c : Cursors) {t : FieldAllocationType} {kind : Kind}
    (hkind : t.kind = some kind) : realOffset c t = (c.slot kind).offset := by
  cases t <;> cases hkind <;> rfl

theorem slot_addOop (c : Cursors) (offset : Nat) (kind : Kind) :
    (c.addOop platform offset).slot kind = c.slot kind := by
  rw [Cursors.addOop]
  split
  next =>
    split
    · cases kind <;> rfl
    · cases kind <;> rfl
  next => cases kind <;> rfl

theorem slot_nextCursors (c : Cursors) (t : FieldAllocationType) (kind : Kind) :
    (nextCursors platform c t).slot kind =
      if t.kind = some kind then (c.slot kind).advance (kind.size platform) else c.slot kind := by
  cases t with
  | nonstaticOop =>
    rw [nextCursors, slot_addOop]
    cases kind <;> rfl
  | _ => cases kind <;> rfl

/-- The fields of a kind get the positions of the kind, in their order. -/
theorem assignOffsets_position (types : List FieldAllocationType) (c : Cursors) {i : Nat}
    {kind : Kind} (hkind : (types[i]?).bind (·.kind) = some kind) :
    (assignOffsets platform types c).1[i]? =
      some ((c.slot kind).position (kind.size platform)
        ((types.take i).countP (·.kind = some kind))) := by
  induction types generalizing c i with
  | nil => simp at hkind
  | cons t types ih =>
    rw [assignOffsets]
    cases i with
    | zero =>
      rw [List.getElem?_cons_zero, Option.bind_some] at hkind
      rw [List.getElem?_cons_zero, realOffset_eq c hkind, List.take_zero, List.countP_nil,
        Slot.position_zero]
    | succ i =>
      rw [List.getElem?_cons_succ] at hkind ⊢
      rw [ih _ hkind, slot_nextCursors, List.take_succ_cons, List.countP_cons]
      split
      next heq => simp [heq, Slot.position_advance]
      next hne => simp [hne]

/-! ## The plan -/

theorem alignSizeUp_spec (size : Nat) {alignment : Nat} (hpos : 0 < alignment) :
    size ≤ alignSizeUp size alignment ∧ alignSizeUp size alignment < size + alignment ∧
      alignSizeUp size alignment % alignment = 0 := by
  have hdiv := Nat.div_add_mod (size + (alignment - 1)) alignment
  have hmod := Nat.mod_lt (size + (alignment - 1)) hpos
  rw [Nat.mul_comm] at hdiv
  refine ⟨?_, ?_, Nat.mul_mod_left _ _⟩ <;> rw [alignSizeUp] <;> omega

/-- The loop takes some of the fields, and leaves the rest of the gap. -/
theorem fillGap_spec (size advance count spaceCount : Nat) (gap : Gap) :
    ∃ m ≤ count, m * size ≤ gap.length ∧ fillGap size advance count spaceCount gap =
      ⟨count - m, spaceCount + m, ⟨gap.offset + m * advance, gap.length - m * size⟩⟩ := by
  induction count generalizing spaceCount gap with
  | zero => exact ⟨0, Nat.le_refl _, by omega, by simp [fillGap]⟩
  | succ count ih =>
    rw [fillGap]
    split
    next hfits =>
      obtain ⟨m, hle, hlength, heq⟩ :=
        ih (spaceCount + 1) ⟨gap.offset + advance, gap.length - size⟩
      refine ⟨m + 1, by omega, ?_, ?_⟩
      · rw [Nat.succ_mul]
        simp only at hlength
        omega
      · rw [heq, Filled.mk.injEq, Gap.mk.injEq, Nat.succ_mul, Nat.succ_mul]
        simp only
        omega
    next => exact ⟨0, Nat.zero_le _, by omega, by simp⟩

/-- What is put into a gap of four bytes fits, one kind after the other. -/
structure GapFilled (platform : Platform) (style : FieldsAllocationStyle)
    (fac rest : FieldAllocationCount) (spaces : Spaces) (offset : Nat) : Prop where
  fits : 4 * spaces.wordCount + 2 * spaces.shortCount + spaces.byteCount +
    platform.heapOopSize * spaces.oopCount ≤ 4
  word : spaces.wordCount ≤ fac.word ∧ rest.word = fac.word - spaces.wordCount
  short : spaces.shortCount ≤ fac.short ∧ rest.short = fac.short - spaces.shortCount
  byte : spaces.byteCount ≤ fac.byte ∧ rest.byte = fac.byte - spaces.byteCount
  oop : spaces.oopCount ≤ fac.oop ∧ rest.oop = fac.oop - spaces.oopCount
  double : rest.double = fac.double
  wordOffset : 0 < spaces.wordCount → spaces.wordOffset = offset
  shortOffset : 0 < spaces.shortCount → spaces.shortOffset = offset + 4 * spaces.wordCount
  byteOffset : 0 < spaces.byteCount →
    spaces.byteOffset = offset + 4 * spaces.wordCount + 2 * spaces.shortCount
  oopOffset : 0 < spaces.oopCount →
    spaces.oopOffset = offset + 4 * spaces.wordCount + 2 * spaces.shortCount
  oopsFirst : style = .oopsFirst → spaces.oopCount = 0

theorem allocateGap_filled (style : FieldsAllocationStyle) (fac : FieldAllocationCount)
    (offset : Nat) :
    GapFilled platform style fac (allocateGap platform style fac ⟨offset, 4⟩).1
      (allocateGap platform style fac ⟨offset, 4⟩).2 offset := by
  simp only [allocateGap, bytesPerInt, bytesPerShort]
  -- the gap after the word
  obtain ⟨w, hw, hword⟩ : ∃ w ≤ 1, (if 0 < fac.word then 1 else 0) = w ∧ w ≤ fac.word ∧
      (if 0 < fac.word then (⟨offset + 4, 4 - 4⟩ : Gap) else ⟨offset, 4⟩) =
        ⟨offset + 4 * w, 4 - 4 * w⟩ := by
    split
    next hpos => exact ⟨1, Nat.le_refl _, rfl, hpos, rfl⟩
    next => exact ⟨0, Nat.zero_le _, rfl, Nat.zero_le _, rfl⟩
  obtain ⟨hcount, hwle, hgap⟩ := hword
  simp only [hcount, hgap]
  obtain ⟨s, hsle, hsfits, hshort⟩ := fillGap_spec 2 2 fac.short 0 ⟨offset + 4 * w, 4 - 4 * w⟩
  simp only [hshort]
  simp only at hsfits
  obtain ⟨b, hble, hbfits, hbyte⟩ := fillGap_spec 1 0 fac.byte 0
    ⟨offset + 4 * w + s * 2, 4 - 4 * w - s * 2⟩
  simp only [hbyte]
  simp only at hbfits
  have hh := platform.heapOopSize_eq
  split
  next hoop =>
    have hlong := hoop.1
    refine ⟨?_, ⟨hwle, rfl⟩, ⟨?_, ?_⟩, ⟨?_, ?_⟩, ⟨hoop.2.1, rfl⟩, rfl, fun _ => rfl,
      fun _ => rfl, fun _ => ?_, fun _ => ?_, fun hstyle => absurd hstyle hoop.2.2⟩
    all_goals simp only
    all_goals omega
  next =>
    refine ⟨?_, ⟨hwle, rfl⟩, ⟨?_, ?_⟩, ⟨?_, ?_⟩, ⟨Nat.zero_le _, rfl⟩, rfl, fun _ => rfl,
      fun _ => rfl, fun _ => ?_, fun _ => ?_, fun _ => rfl⟩
    all_goals simp only
    all_goals omega

/-- Where a plan puts the kinds of fields: `gap` is the offset before the first double. -/
structure Arranged (platform : Platform) (style : FieldsAllocationStyle)
    (fac : FieldAllocationCount) (first : Nat) (p : Plan) (gap : Nat) : Prop where
  gap_le : gap + 4 * p.word.spaceCount + 2 * p.short.spaceCount + p.byte.spaceCount +
    platform.heapOopSize * p.oop.spaceCount ≤ p.nextDouble
  gap_mod : gap % 4 = 0
  word : p.word.spaceCount ≤ fac.word
  short : p.short.spaceCount ≤ fac.short
  byte : p.byte.spaceCount ≤ fac.byte
  oop : p.oop.spaceCount ≤ fac.oop
  wordSpace : 0 < p.word.spaceCount → p.word.spaceOffset = gap
  shortSpace : 0 < p.short.spaceCount → p.short.spaceOffset = gap + 4 * p.word.spaceCount
  byteSpace : 0 < p.byte.spaceCount →
    p.byte.spaceOffset = gap + 4 * p.word.spaceCount + 2 * p.short.spaceCount
  oopSpace : 0 < p.oop.spaceCount → p.oop.spaceOffset = gap ∧ platform.heapOopSize = 4 ∧
    p.word.spaceCount = 0 ∧ p.short.spaceCount = 0 ∧ p.byte.spaceCount = 0
  double_mod : p.nextDouble % 4 = 0 ∧ (0 < fac.double → p.nextDouble % 8 = 0)
  word_next : p.word.next = p.nextDouble + 8 * fac.double
  short_next : p.short.next = p.word.next + 4 * (fac.word - p.word.spaceCount)
  byte_next : p.byte.next = p.short.next + 2 * (fac.short - p.short.spaceCount)
  oopsFirst : style = .oopsFirst → p.oop.spaceCount = 0 ∧ p.oop.next = first ∧
    first + platform.heapOopSize * fac.oop ≤ gap ∧
    p.notalignedOffset = p.byte.next + (fac.byte - p.byte.spaceCount)
  oopsLast : style = .oopsLast → first ≤ gap ∧
    p.byte.next + (fac.byte - p.byte.spaceCount) ≤ p.oop.next ∧
    (p.oop.spaceCount < fac.oop → p.oop.next % platform.heapOopSize = 0) ∧
    p.notalignedOffset = p.oop.next + platform.heapOopSize * (fac.oop - p.oop.spaceCount)

/-- The offset before the first double is a multiple of four. -/
theorem doubleOffset_spec (style : FieldsAllocationStyle) (fac : FieldAllocationCount)
    {first : Nat} (hfirst : first % 4 = 0) :
    doubleOffset platform style fac first % 4 = 0 ∧ first ≤ doubleOffset platform style fac first ∧
      (style = .oopsFirst → first + platform.heapOopSize * fac.oop =
        doubleOffset platform style fac first) := by
  have hh := platform.heapOopSize_eq
  cases style with
  | oopsFirst =>
    simp only [doubleOffset]
    rcases hh with hh | hh <;> rw [hh] <;> refine ⟨?_, ?_, ?_⟩ <;> omega
  | oopsLast => exact ⟨hfirst, Nat.le_refl _, by simp⟩

/-- The assertion about the length of the gap. -/
theorem gapLength_eq {style : FieldsAllocationStyle} {compactFields : Bool}
    {fac : FieldAllocationCount} {first length : Nat} (hfirst : first % 4 = 0)
    (hgap : gapLength platform style compactFields fac first = some length) :
    length = bytesPerInt := by
  obtain ⟨hmod, -, -⟩ := @doubleOffset_spec platform style fac first hfirst
  obtain ⟨hle, hlt, halign⟩ := alignSizeUp_spec (doubleOffset platform style fac first)
    (show 0 < bytesPerLong by decide)
  simp only [gapLength] at hgap
  split at hgap
  next hcond =>
    have hne := hcond.2.2
    obtain rfl := Option.some.inj hgap
    simp only [bytesPerLong, bytesPerInt] at *
    omega
  next => cases hgap

theorem arrange_arranged {style : FieldsAllocationStyle} {fac rest : FieldAllocationCount}
    {first nextDouble gap : Nat} {spaces : Spaces}
    (hdouble : nextDouble % 4 = 0 ∧ (0 < fac.double → nextDouble % 8 = 0))
    (hfilled : GapFilled platform style fac rest spaces gap) (hmod : gap % 4 = 0)
    (hle : gap + 4 * spaces.wordCount + 2 * spaces.shortCount + spaces.byteCount +
      platform.heapOopSize * spaces.oopCount ≤ nextDouble)
    (hstart : first ≤ gap)
    (hoops : style = .oopsFirst → first + platform.heapOopSize * fac.oop = gap) :
    Arranged platform style fac first
      (arrange platform style rest spaces first nextDouble) gap := by
  obtain ⟨hfits, ⟨hword, hword'⟩, ⟨hshort, hshort'⟩, ⟨hbyte, hbyte'⟩, ⟨hoop, hoop'⟩, hdbl, hwo, hso,
    hbo, hoo, hnone⟩ := hfilled
  have hh := platform.heapOopSize_eq
  simp only [arrange, bytesPerLong, bytesPerInt, bytesPerShort, hdbl]
  refine ⟨hle, hmod, hword, hshort, hbyte, hoop, hwo, hso, hbo, ?_, hdouble, ?_, ?_, ?_, ?_, ?_⟩
  · intro hpos
    have hoo := hoo hpos
    simp only at hpos ⊢
    obtain ⟨k, hk⟩ : ∃ k, spaces.oopCount = k + 1 := ⟨spaces.oopCount - 1, by omega⟩
    rw [hk, Nat.mul_succ] at hfits
    rcases hh with hh | hh <;> rw [hh] at hfits <;> omega
  · simp only
    omega
  · simp only
    omega
  · simp only
    omega
  · rintro rfl
    refine ⟨hnone rfl, rfl, Nat.le_of_eq (hoops rfl), ?_⟩
    simp only
    omega
  · rintro rfl
    simp only
    obtain ⟨hup, -, haligned⟩ := alignSizeUp_spec
      (nextDouble + fac.double * 8 + rest.word * 4 + rest.short * 2 + rest.byte)
      (show 0 < platform.heapOopSize by omega)
    rw [Nat.mul_comm platform.heapOopSize, hoop', ← hbyte']
    refine ⟨hstart, ?_, ?_, rfl⟩
    · split
      · exact hup
      · exact Nat.le_refl _
    · intro hlt
      rw [if_pos (by omega)]
      exact haligned

theorem plan_arranged (style : FieldsAllocationStyle) (compactFields : Bool)
    (fac : FieldAllocationCount) {first : Nat} (hfirst : first % 4 = 0) :
    ∃ gap, Arranged platform style fac first (plan platform style compactFields fac first) gap := by
  obtain ⟨hmod, hstart, hoops⟩ := @doubleOffset_spec platform style fac first hfirst
  obtain ⟨hle, hlt, halign⟩ := alignSizeUp_spec (doubleOffset platform style fac first)
    (show 0 < bytesPerLong by decide)
  have hdouble : (if 0 < fac.double then
      alignSizeUp (doubleOffset platform style fac first) bytesPerLong
      else doubleOffset platform style fac first) % 4 = 0 ∧
      (0 < fac.double → (if 0 < fac.double then
        alignSizeUp (doubleOffset platform style fac first) bytesPerLong
        else doubleOffset platform style fac first) % 8 = 0) := by
    simp only [bytesPerLong] at *
    split
    next hpos => exact ⟨by omega, fun _ => halign⟩
    next hzero => exact ⟨hmod, fun hpos => absurd hpos hzero⟩
  refine ⟨doubleOffset platform style fac first, ?_⟩
  rw [plan]
  cases hgap : gapLength platform style compactFields fac first with
  | some length =>
    have hfour := gapLength_eq hfirst hgap
    rw [bytesPerInt] at hfour
    subst hfour
    have hfilled := @allocateGap_filled platform style fac (doubleOffset platform style fac first)
    refine arrange_arranged hdouble hfilled hmod ?_ hstart hoops
    -- the gap is there because there is a double to be aligned
    simp only [gapLength] at hgap
    split at hgap
    next hcond =>
      have hfits := hfilled.fits
      have hlength := Option.some.inj hgap
      rw [if_pos hcond.1]
      omega
    next => cases hgap
  | none =>
    have hfilled : GapFilled platform style fac fac {}
        (doubleOffset platform style fac first) := by
      constructor <;> simp
    refine arrange_arranged hdouble hfilled hmod ?_ hstart hoops
    simp only
    split
    · omega
    · omega

/-! ## Positions of a plan -/

def Plan.slot (p : Plan) : Kind → Slot
  | .oop => p.oop
  | .byte => p.byte
  | .short => p.short
  | .word => p.word
  | .double => ⟨0, 0, p.nextDouble⟩

/-- The offset that a plan has for the field number `k` of a kind. -/
def Plan.position (platform : Platform) (p : Plan) (kind : Kind) (k : Nat) : Nat :=
  (p.slot kind).position (kind.size platform) k

namespace Arranged

variable {style : FieldsAllocationStyle} {fac : FieldAllocationCount} {first gap : Nat} {p : Plan}

/-- The bounds of the zones of an object, in the order of their addresses: the oops when they
are first, words, shorts, bytes and oops in the gap, doubles, words, shorts, bytes, and the oops
when they are last. -/
def bound (style : FieldsAllocationStyle) (first gap : Nat) (p : Plan) : Nat → Nat
  | 0 => first
  | 1 => gap
  | 2 => gap + 4 * p.word.spaceCount
  | 3 => gap + 4 * p.word.spaceCount + 2 * p.short.spaceCount
  | 4 => gap + 4 * p.word.spaceCount + 2 * p.short.spaceCount + p.byte.spaceCount
  | 5 => p.nextDouble
  | 6 => p.word.next
  | 7 => p.short.next
  | 8 => p.byte.next
  | 9 => match style with
    | .oopsFirst => p.notalignedOffset
    | .oopsLast => p.oop.next
  | _ => p.notalignedOffset

/-- The zone of a kind of field, in the gap or not. -/
def zone (style : FieldsAllocationStyle) : Kind → Bool → Nat
  | .word, true => 1
  | .short, true => 2
  | .byte, true => 3
  | .oop, true => 4
  | .double, _ => 5
  | .word, false => 6
  | .short, false => 7
  | .byte, false => 8
  | .oop, false => match style with
    | .oopsFirst => 0
    | .oopsLast => 9

theorem bound_le (h : Arranged platform style fac first p gap) {r r' : Nat} (hle : r ≤ r') :
    bound style first gap p r ≤ bound style first gap p r' := by
  obtain ⟨hgap, -, -, -, -, -, -, -, -, -, -, hnw, hns, hnb, hof, hol⟩ := h
  refine monotone_nat_of_le_succ (fun r => ?_) hle
  match r with
  | 0 =>
    cases style with
    | oopsFirst => exact Nat.le_trans (Nat.le_add_right _ _) (hof rfl).2.2.1
    | oopsLast => exact (hol rfl).1
  | 1 => exact Nat.le_add_right _ _
  | 2 => exact Nat.le_add_right _ _
  | 3 => exact Nat.le_add_right _ _
  | 4 => exact Nat.le_trans (Nat.le_add_right _ _) hgap
  | 5 => exact Nat.le.intro hnw.symm
  | 6 => exact Nat.le.intro hns.symm
  | 7 => exact Nat.le.intro hnb.symm
  | 8 =>
    cases style with
    | oopsFirst => exact Nat.le.intro (hof rfl).2.2.2.symm
    | oopsLast => exact Nat.le_trans (Nat.le_add_right _ _) (hol rfl).2.1
  | 9 =>
    cases style with
    | oopsFirst => exact Nat.le_refl _
    | oopsLast => exact Nat.le.intro (hol rfl).2.2.2.symm
  | _ + 10 => exact Nat.le_refl _

theorem bound_le_notaligned (h : Arranged platform style fac first p gap) (r : Nat) :
    bound style first gap p r ≤ p.notalignedOffset :=
  h.bound_le (Nat.le_add_right r 10)

/-- The fields of a kind in the gap lie in their zone. -/
theorem space_bounds (h : Arranged platform style fac first p gap) {kind : Kind}
    (hpos : 0 < (p.slot kind).spaceCount) :
    bound style first gap p (zone style kind true) ≤ (p.slot kind).spaceOffset ∧
      (p.slot kind).spaceOffset + (p.slot kind).spaceCount * kind.size platform ≤
        bound style first gap p (zone style kind true + 1) ∧
      (p.slot kind).spaceOffset % kind.size platform = 0 := by
  obtain ⟨hgap, hmod, -, -, -, -, hwo, hso, hbo, hoo, -, -, -, -, -, -⟩ := h
  cases kind with
  | oop =>
    obtain ⟨heq, hsize, hw, hs, hb⟩ := hoo hpos
    simp only [Plan.slot, Kind.size, zone, bound, heq, hw, hs, hb, hsize] at hgap ⊢
    omega
  | byte =>
    have hoffset := hbo hpos
    refine ⟨Nat.le_of_eq hoffset.symm, ?_, Nat.mod_one _⟩
    simp only [Plan.slot, Kind.size, zone, bound]
    omega
  | short =>
    simp only [Plan.slot, Kind.size, zone, bound, bytesPerShort, hso hpos]
    omega
  | word =>
    simp only [Plan.slot, Kind.size, zone, bound, bytesPerInt, hwo hpos]
    omega
  | double => cases hpos

/-- The other fields of a kind lie in their zone. -/
theorem next_bounds (h : Arranged platform style fac first p gap)
    (hfirst : first % platform.heapOopSize = 0) {kind : Kind}
    (hlt : (p.slot kind).spaceCount < kind.count fac) :
    bound style first gap p (zone style kind false) ≤ (p.slot kind).next ∧
      (p.slot kind).next + (kind.count fac - (p.slot kind).spaceCount) * kind.size platform ≤
        bound style first gap p (zone style kind false + 1) ∧
      (p.slot kind).next % kind.size platform = 0 := by
  obtain ⟨-, -, -, -, -, -, -, -, -, -, hdouble, hnw, hns, hnb, hof, hol⟩ := h
  cases kind with
  | oop =>
    cases style with
    | oopsFirst =>
      obtain ⟨hspace, hnext, hle, -⟩ := hof rfl
      simp only [Plan.slot, Kind.size, Kind.count, zone, bound, hspace, hnext]
      exact ⟨Nat.le_refl _, by rwa [Nat.sub_zero, Nat.mul_comm], hfirst⟩
    | oopsLast =>
      obtain ⟨-, -, hmod, hend⟩ := hol rfl
      simp only [Plan.slot, Kind.size, Kind.count, zone, bound]
      exact ⟨Nat.le_refl _, by rw [hend, Nat.mul_comm], hmod hlt⟩
  | byte =>
    refine ⟨Nat.le_refl _, ?_, Nat.mod_one _⟩
    cases style with
    | oopsFirst =>
      have hend := (hof rfl).2.2.2
      simp only [Plan.slot, Kind.size, Kind.count, zone, bound]
      omega
    | oopsLast =>
      have hend := (hol rfl).2.1
      simp only [Plan.slot, Kind.size, Kind.count, zone, bound]
      omega
  | short =>
    simp only [Plan.slot, Kind.size, Kind.count, zone, bound, bytesPerShort]
    omega
  | word =>
    simp only [Plan.slot, Kind.size, Kind.count, zone, bound, bytesPerInt]
    omega
  | double =>
    simp only [Plan.slot, Kind.size, Kind.count, zone, bound, bytesPerLong] at hlt ⊢
    omega

/-- The position of a field in its zone. -/
theorem position_bounds (h : Arranged platform style fac first p gap)
    (hfirst : first % platform.heapOopSize = 0) {kind : Kind} {k : Nat}
    (hk : k < kind.count fac) :
    bound style first gap p (zone style kind (k < (p.slot kind).spaceCount)) ≤
        p.position platform kind k ∧
      p.position platform kind k + kind.size platform ≤
        bound style first gap p (zone style kind (k < (p.slot kind).spaceCount) + 1) ∧
      p.position platform kind k % kind.size platform = 0 := by
  rw [Plan.position, Slot.position]
  split
  next hspace =>
    obtain ⟨hlo, hhi, hmod⟩ := h.space_bounds (by omega : 0 < (p.slot kind).spaceCount)
    have hmul := Nat.mul_le_mul_right (kind.size platform) hspace
    rw [Nat.succ_mul] at hmul
    rw [decide_eq_true hspace, Nat.add_mul_mod_self_right]
    exact ⟨by omega, by omega, hmod⟩
  next hnext =>
    obtain ⟨hlo, hhi, hmod⟩ := h.next_bounds hfirst (by omega : (p.slot kind).spaceCount < _)
    have hmul := Nat.mul_le_mul_right (kind.size platform)
      (show k - (p.slot kind).spaceCount + 1 ≤ kind.count fac - (p.slot kind).spaceCount by omega)
    rw [Nat.succ_mul] at hmul
    rw [decide_eq_false hnext, Nat.add_mul_mod_self_right]
    exact ⟨by omega, by omega, hmod⟩

theorem zone_injective {kind kind' : Kind} {b b' : Bool}
    (heq : zone style kind b = zone style kind' b') :
    kind = kind' ∧ (kind ≠ .double → b = b') := by
  cases style <;> cases kind <;> cases b <;> cases kind' <;> cases b' <;> revert heq <;> decide

/-- Fields do not overlap. -/
theorem position_disjoint (h : Arranged platform style fac first p gap)
    (hfirst : first % platform.heapOopSize = 0) {kind kind' : Kind} {k k' : Nat}
    (hk : k < kind.count fac) (hk' : k' < kind'.count fac) (hne : kind = kind' → k < k') :
    p.position platform kind k + kind.size platform ≤ p.position platform kind' k' ∨
      p.position platform kind' k' + kind'.size platform ≤ p.position platform kind k := by
  obtain ⟨hlo, hhi, -⟩ := h.position_bounds hfirst hk
  obtain ⟨hlo', hhi', -⟩ := h.position_bounds hfirst hk'
  rcases Nat.lt_trichotomy (zone style kind (k < (p.slot kind).spaceCount))
    (zone style kind' (k' < (p.slot kind').spaceCount)) with hlt | heq | hgt
  · exact .inl (Nat.le_trans hhi (Nat.le_trans (h.bound_le hlt) hlo'))
  · obtain ⟨rfl, hpart⟩ := zone_injective heq
    refine .inl (Slot.position_add_le _ _ (hne rfl) fun hspace => ?_)
    by_cases hdouble : kind = .double
    · rw [hdouble] at hspace
      cases hspace
    · simpa [hspace] using hpart hdouble
  · exact .inr (Nat.le_trans hhi' (Nat.le_trans (h.bound_le hgt) hlo))

end Arranged

/-! ## Classes -/

/-- What holds of every class: its maps cover exactly the oop fields of the class and of its
superclasses, which lie in the part of the object that `nonstatic_field_size` counts. -/
structure WellFormed (platform : Platform) (k : InstanceKlass) : Prop where
  mapCount : k.oopMaps.length = k.nonstaticOopMapCount
  blocks : NonemptyBlocks k.oopMaps
  covers : ∀ x, Covered platform k.oopMaps x ↔ x ∈ k.oopOffsets
  inside : ∀ x ∈ k.oopOffsets, x + platform.heapOopSize ≤
    platform.baseOffsetInBytes + k.nonstaticFieldSize * platform.heapOopSize

/-- The fields of a class are aligned, inside the object from `first` on, and do not overlap. -/
structure FieldsSound (platform : Platform) (first : Nat) (k : InstanceKlass) : Prop where
  aligned : ∀ f ∈ k.fields, ∀ kind ∈ f.1.kind, f.2 % kind.size platform = 0
  inside : ∀ f ∈ k.fields, ∀ kind ∈ f.1.kind,
    first ≤ f.2 ∧ f.2 + kind.size platform ≤ k.instanceSize * platform.wordSize
  disjoint : k.fields.Pairwise fun f g => ∀ kind ∈ f.1.kind, ∀ kind' ∈ g.1.kind,
    f.2 + kind.size platform ≤ g.2 ∨ g.2 + kind'.size platform ≤ f.2

section Fields

variable {types : List FieldAllocationType} {kind kind' : Kind}

theorem length_assignOffsets (types : List FieldAllocationType) (c : Cursors) :
    (assignOffsets platform types c).1.length = types.length := by
  induction types generalizing c with
  | nil => rfl
  | cons t types ih => rw [assignOffsets, List.length_cons, ih, List.length_cons]

/-- The number of a field among those of its kind. -/
theorem countP_take_lt {i j : Nat} (hij : i < j) (hkind : (types[i]?).bind (·.kind) = some kind) :
    (types.take i).countP (·.kind = some kind) < (types.take j).countP (·.kind = some kind) := by
  have hi : i < types.length := by
    by_contra hge
    rw [List.getElem?_eq_none (by omega)] at hkind
    cases hkind
  rw [List.getElem?_eq_getElem hi, Option.bind_some] at hkind
  have hsucc : (types.take (i + 1)).countP (·.kind = some kind) =
      (types.take i).countP (·.kind = some kind) + 1 := by
    rw [List.take_succ_eq_append_getElem hi, List.countP_append]
    simp [hkind]
  have hsub : (types.take (i + 1)).Sublist (types.take j) := by
    rw [show types.take (i + 1) = (types.take j).take (i + 1) by
      rw [List.take_take, Nat.min_eq_left hij]]
    exact List.take_sublist _ _
  have := hsub.countP_le (p := (·.kind = some kind))
  omega

theorem countP_take_lt_count {i : Nat} (hkind : (types[i]?).bind (·.kind) = some kind) :
    (types.take i).countP (·.kind = some kind) < kind.count (fieldAllocationCount types) := by
  have hi : i < types.length := by
    by_contra hge
    rw [List.getElem?_eq_none (by omega)] at hkind
    cases hkind
  rw [count_fieldAllocationCount]
  have := countP_take_lt hi hkind
  rwa [List.take_length] at this

theorem slot_startCursors (statics : StaticCursors) (p : Plan) (kind : Kind) :
    (startCursors statics p).slot kind = p.slot kind := by
  cases kind <;> rfl

/-- A field at an index, with its offset in the plan. -/
theorem field_position (statics : StaticCursors) (p : Plan) {i : Nat}
    (hi : i < (types.zip (assignOffsets platform types (startCursors statics p)).1).length)
    (hkind : (types.zip (assignOffsets platform types (startCursors statics p)).1)[i].1.kind =
      some kind) :
    (types[i]?).bind (·.kind) = some kind ∧
      (types.zip (assignOffsets platform types (startCursors statics p)).1)[i].2 =
        p.position platform kind ((types.take i).countP (·.kind = some kind)) := by
  rw [List.length_zip, length_assignOffsets, Nat.min_self] at hi
  rw [List.getElem_zip] at hkind ⊢
  have hbind : (types[i]?).bind (·.kind) = some kind := by
    rw [List.getElem?_eq_getElem hi]
    exact hkind
  have hposition := @assignOffsets_position platform types (startCursors statics p) i kind hbind
  rw [List.getElem?_eq_getElem (by rwa [length_assignOffsets]), slot_startCursors] at hposition
  exact ⟨hbind, Option.some.inj hposition⟩

end Fields

/-- The first offset for a class is aligned for oops and for ints. -/
theorem firstNonstaticFieldOffset_mod (super : Option InstanceKlass) :
    firstNonstaticFieldOffset platform super % platform.heapOopSize = 0 ∧
      firstNonstaticFieldOffset platform super % 4 = 0 := by
  have hoop := platform.base_oop
  have hint := platform.base_int
  have hh := platform.heapOopSize_eq
  rw [firstNonstaticFieldOffset, Nat.add_mul_mod_self_right]
  refine ⟨hoop, ?_⟩
  generalize platform.heapOopSize = size at *
  rcases hh with rfl | rfl <;> omega

/-- All fields are inside the object. -/
theorem notalignedOffset_le (style : FieldsAllocationStyle) (compactFields : Bool)
    (statics : StaticCursors) (super : Option InstanceKlass) (types : List FieldAllocationType) :
    (plan platform style compactFields (fieldAllocationCount types)
      (firstNonstaticFieldOffset platform super)).notalignedOffset ≤
    (parseClassFile platform style compactFields statics super types).instanceSize *
      platform.wordSize := by
  have hw := platform.wordSize_eq
  simp only [parseClassFile, alignObjectSize, bytesPerLong]
  generalize (plan platform style compactFields (fieldAllocationCount types)
    (firstNonstaticFieldOffset platform super)).notalignedOffset = x
  obtain ⟨hle, -, hmod⟩ := alignSizeUp_spec x (show 0 < platform.wordSize by omega)
  obtain ⟨hle', -, -⟩ := alignSizeUp_spec (alignSizeUp x platform.wordSize / platform.wordSize)
    (show 0 < 8 / platform.wordSize by rcases hw with hw | hw <;> rw [hw] <;> decide)
  have hmul := Nat.mul_le_mul_right platform.wordSize hle'
  rw [Nat.div_mul_cancel (Nat.dvd_of_mod_eq_zero hmod)] at hmul
  omega

section Parse

variable (style : FieldsAllocationStyle) (compactFields : Bool) (statics : StaticCursors)
  (super : Option InstanceKlass) (types : List FieldAllocationType)

theorem parseClassFile_fields :
    FieldsSound platform (firstNonstaticFieldOffset platform super)
      (parseClassFile platform style compactFields statics super types) := by
  obtain ⟨hoop, hint⟩ := @firstNonstaticFieldOffset_mod platform super
  obtain ⟨gap, harranged⟩ := plan_arranged style compactFields (fieldAllocationCount types) hint
  have hsize := @notalignedOffset_le platform style compactFields statics super types
  refine ⟨?_, ?_, ?_⟩
  · intro f hf kind hkind
    obtain ⟨i, hi, rfl⟩ := List.mem_iff_getElem.mp hf
    obtain ⟨hbind, hposition⟩ := field_position statics _ hi hkind
    rw [show (parseClassFile platform style compactFields statics super types).fields[i].2 = _
      from hposition]
    exact (harranged.position_bounds hoop (countP_take_lt_count hbind)).2.2
  · intro f hf kind hkind
    obtain ⟨i, hi, rfl⟩ := List.mem_iff_getElem.mp hf
    obtain ⟨hbind, hposition⟩ := field_position statics _ hi hkind
    rw [show (parseClassFile platform style compactFields statics super types).fields[i].2 = _
      from hposition]
    obtain ⟨hlo, hhi, -⟩ := harranged.position_bounds hoop (countP_take_lt_count hbind)
    refine ⟨Nat.le_trans (harranged.bound_le (Nat.zero_le _)) hlo, ?_⟩
    exact Nat.le_trans hhi (Nat.le_trans (harranged.bound_le_notaligned _) hsize)
  · rw [List.pairwise_iff_getElem]
    intro i j hi hj hij kind hkind kind' hkind'
    obtain ⟨hbind, hposition⟩ := field_position statics _ hi hkind
    obtain ⟨hbind', hposition'⟩ := field_position statics _ hj hkind'
    rw [show (parseClassFile platform style compactFields statics super types).fields[i].2 = _
      from hposition, show (parseClassFile platform style compactFields statics super
        types).fields[j].2 = _ from hposition']
    apply harranged.position_disjoint hoop (countP_take_lt_count hbind)
      (countP_take_lt_count hbind')
    rintro rfl
    exact countP_take_lt hij hbind

/-- The oop fields that the class declares are inside the part that it adds. -/
theorem oops_inside {x : Nat}
    (hx : x ∈ oopsOf types (assignOffsets platform types (startCursors statics
      (plan platform style compactFields (fieldAllocationCount types)
        (firstNonstaticFieldOffset platform super)))).1) :
    firstNonstaticFieldOffset platform super ≤ x ∧ x + platform.heapOopSize ≤
      (plan platform style compactFields (fieldAllocationCount types)
        (firstNonstaticFieldOffset platform super)).notalignedOffset := by
  obtain ⟨hoop, hint⟩ := @firstNonstaticFieldOffset_mod platform super
  obtain ⟨gap, harranged⟩ := plan_arranged style compactFields (fieldAllocationCount types) hint
  rw [oopsOf, List.mem_map] at hx
  obtain ⟨f, hf, rfl⟩ := hx
  rw [List.mem_filter, decide_eq_true_iff] at hf
  obtain ⟨hmem, htype⟩ := hf
  obtain ⟨i, hi, rfl⟩ := List.mem_iff_getElem.mp hmem
  obtain ⟨hbind, hposition⟩ :=
    @field_position platform types .oop statics _ i hi (by rw [htype]; rfl)
  obtain ⟨hlo, hhi, -⟩ := harranged.position_bounds hoop (countP_take_lt_count hbind)
  rw [hposition]
  exact ⟨Nat.le_trans (harranged.bound_le (Nat.zero_le _)) hlo,
    Nat.le_trans hhi (harranged.bound_le_notaligned _)⟩

/-- `nonstatic_field_size` counts all fields. -/
theorem nonstaticFieldSize_eq :
    platform.baseOffsetInBytes +
        (parseClassFile platform style compactFields statics super types).nonstaticFieldSize *
          platform.heapOopSize =
      alignSizeUp (plan platform style compactFields (fieldAllocationCount types)
        (firstNonstaticFieldOffset platform super)).notalignedOffset platform.heapOopSize := by
  obtain ⟨hoop, hint⟩ := @firstNonstaticFieldOffset_mod platform super
  obtain ⟨gap, harranged⟩ :=
    @plan_arranged platform style compactFields (fieldAllocationCount types) _ hint
  have hfirst := harranged.bound_le_notaligned 0
  have hh := platform.heapOopSize_eq
  obtain ⟨hle, -, hmod⟩ := alignSizeUp_spec (plan platform style compactFields
    (fieldAllocationCount types) (firstNonstaticFieldOffset platform super)).notalignedOffset
    (show 0 < platform.heapOopSize by omega)
  simp only [parseClassFile, Arranged.bound] at hfirst ⊢
  rw [Nat.add_mul, ← Nat.add_assoc, ← firstNonstaticFieldOffset, Nat.div_mul_cancel]
  · omega
  · exact Nat.dvd_sub (Nat.dvd_of_mod_eq_zero hmod) (Nat.dvd_of_mod_eq_zero hoop)

/-- What a class takes over from its superclass. -/
theorem super_maps (hsuper : ∀ k ∈ super, WellFormed platform k) :
    (super.map (·.nonstaticOopMapCount)).getD 0 = ((super.map (·.oopMaps)).getD []).length ∧
      NonemptyBlocks ((super.map (·.oopMaps)).getD []) ∧
      (∀ x, Covered platform ((super.map (·.oopMaps)).getD []) x ↔
        x ∈ (super.map (·.oopOffsets)).getD []) ∧
      ∀ x ∈ (super.map (·.oopOffsets)).getD [],
        x + platform.heapOopSize ≤ firstNonstaticFieldOffset platform super := by
  cases super with
  | none =>
    refine ⟨rfl, ?_, ?_, ?_⟩
    · intro block hmem
      cases hmem
    · intro x
      simpa using not_covered_nil x
    · intro x hx
      cases hx
  | some k =>
    have hk := hsuper k rfl
    exact ⟨hk.mapCount.symm, hk.blocks, hk.covers, hk.inside⟩

theorem parseClassFile_wellFormed (hsuper : ∀ k ∈ super, WellFormed platform k) :
    WellFormed platform (parseClassFile platform style compactFields statics super types) := by
  obtain ⟨hcovered, hblocks, hfirstBlock⟩ := @assignOffsets_oopMaps platform types
    (startCursors statics (plan platform style compactFields (fieldAllocationCount types)
      (firstNonstaticFieldOffset platform super))) (by intro block hmem; cases hmem)
  obtain ⟨hcount, hsuperBlocks, hsuperCovered, hsuperInside⟩ := super_maps super hsuper
  have hh := platform.heapOopSize_eq
  have hinside := fun x => @oops_inside platform style compactFields statics super types x
  -- when the superclass has oops, the offsets are not 0
  have hhead : (super.map (·.oopMaps)).getD [] ≠ [] → ∀ block,
      (assignOffsets platform types (startCursors statics (plan platform style compactFields
        (fieldAllocationCount types)
        (firstNonstaticFieldOffset platform super)))).2.oopMaps.reverse.head?
        = some block → block.offset = (assignOffsets platform types (startCursors statics
          (plan platform style compactFields (fieldAllocationCount types)
            (firstNonstaticFieldOffset platform super)))).2.firstNonstaticOopOffset := by
    intro hne block hblock
    obtain ⟨b, maps, hmaps⟩ := List.exists_cons_of_ne_nil hne
    have hpos := hsuperBlocks b (hmaps ▸ List.mem_cons_self)
    have hoffset := hsuperInside b.offset ((hsuperCovered b.offset).mp
      ⟨b, hmaps ▸ List.mem_cons_self, 0, hpos, by simp⟩)
    rw [List.head?_reverse] at hblock
    refine ((hfirstBlock ⟨fun _ => rfl, by rintro _ ⟨⟩⟩ ?_).defined block hblock).1
    intro x hx
    have := (hinside x hx).1
    omega
  obtain ⟨hlength, hnonempty, hfill⟩ := @fillOopMaps_spec platform super _ _ _ rfl hcount
    hsuperBlocks (fun block hmem => hblocks block (List.mem_reverse.mp hmem)) hhead
  refine ⟨hlength, hnonempty, ?_, ?_⟩
  · intro x
    refine (hfill x).trans ?_
    rw [covered_reverse, hcovered, hsuperCovered]
    simp only [parseClassFile, List.mem_append, oopsOf]
    have hnil := @not_covered_nil platform x
    simp only [startCursors, hnil, false_or]
  · intro x hx
    rw [nonstaticFieldSize_eq]
    obtain ⟨hle, -, -⟩ := alignSizeUp_spec (plan platform style compactFields
      (fieldAllocationCount types) (firstNonstaticFieldOffset platform super)).notalignedOffset
      (show 0 < platform.heapOopSize by omega)
    simp only [parseClassFile, List.mem_append] at hx
    rcases hx with hx | hx
    · obtain ⟨gap, harranged⟩ := @plan_arranged platform style compactFields
        (fieldAllocationCount types) _ (@firstNonstaticFieldOffset_mod platform super).2
      have hfirst := harranged.bound_le_notaligned 0
      have := hsuperInside x hx
      simp only [Arranged.bound] at hfirst
      omega
    · have := (hinside x hx).2
      omega

end Parse

/-- Instance field layout is sound, for all types of fields in any order and any superclass: the
fields are aligned, disjoint and inside the object, the gap before the first double has the
length of an int, and the oop maps, in number as allocated, cover exactly the oop fields of the
class and its superclasses. -/
theorem parseClassFile_sound (platform : Platform) (style : FieldsAllocationStyle)
    (compactFields : Bool) (statics : StaticCursors) (super : Option InstanceKlass)
    (hsuper : ∀ k ∈ super, WellFormed platform k) (types : List FieldAllocationType) :
    let k := parseClassFile platform style compactFields statics super types
    k.fields.map (·.1) = types ∧
      FieldsSound platform (firstNonstaticFieldOffset platform super) k ∧
      (∀ length, gapLength platform style compactFields (fieldAllocationCount types)
        (firstNonstaticFieldOffset platform super) = some length → length = bytesPerInt) ∧
      WellFormed platform k := by
  refine ⟨?_, parseClassFile_fields .., ?_, parseClassFile_wellFormed _ _ _ _ _ hsuper⟩
  · simp only [parseClassFile]
    exact List.map_fst_zip (by rw [length_assignOffsets])
  · intro length hgap
    exact gapLength_eq (@firstNonstaticFieldOffset_mod platform super).2 hgap

/-- Compressed oops: the header ends in the middle of a word. -/
def compressedOops : Platform :=
  ⟨8, 4, 12, .inr rfl, .inl rfl, by decide, by decide, by decide⟩

/-- A class whose short and byte go into the gap before the double. -/
def gapKlass : InstanceKlass :=
  parseClassFile compressedOops .oopsLast true ⟨0, 0, 0, 0, 0⟩ none
    [.nonstaticOop, .nonstaticDouble, .nonstaticShort, .nonstaticByte]

example : gapKlass.fields.map (·.2) = [24, 16, 12, 14] := by decide

theorem parseClassFile_sound_gap :
    WellFormed compressedOops gapKlass ∧
      WellFormed compressedOops (parseClassFile compressedOops .oopsLast true ⟨0, 0, 0, 0, 0⟩
        (some gapKlass) [.nonstaticByte, .nonstaticOop]) := by
  have hsuper : WellFormed compressedOops gapKlass :=
    (parseClassFile_sound compressedOops .oopsLast true ⟨0, 0, 0, 0, 0⟩ none (by simp) _).2.2.2
  refine ⟨hsuper, (parseClassFile_sound _ _ _ _ (some gapKlass) ?_ _).2.2.2⟩
  intro k hk
  obtain rfl := Option.some.inj hk
  exact hsuper

end HotSpot.FieldLayout
