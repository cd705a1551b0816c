import HotSpot.Opto.TypeOrder
import HotSpot.Lib.Potential
import Mathlib.Data.Nat.Size

/-! # Saturation of the integer types

The optimistic phase lets the type of a node fall and calls `widen` at every fall; the
pessimistic phase lets it rise and calls `narrow` at every rise. Both keep a type from
walking through the integers one by one.
-/

namespace HotSpot.Opto

namespace TypeInteger

variable {w : Nat}

/-- The step of `widen` from a count that rises no more. The new upper end is
`pushHi hi max`. -/
def pushOut (pushHi : BitVec w → BitVec w → BitVec w) (t : TypeInteger w)
    (limit : Option (TypeInteger w)) : TypeInteger w :=
  let max := (limit.map hi).getD (BitVec.intMax w)
  let min := (limit.map lo).getD (BitVec.intMin w)
  if min.slt t.lo && t.hi.slt max then
    -- Neither endpoint is extremal: push out the one closer to its limit.
    if (0 : BitVec w).sle t.lo || max - t.hi ≤ t.lo - min then
      make t.lo (pushHi t.hi max) widenMax
    else make min t.hi widenMax
  else full w

/-- What `TypeInt::widen` and `TypeLong::widen` share. -/
def widenWith (pushHi : BitVec w → BitVec w → BitVec w) (t : TypeInteger w)
    (old limit : Option (TypeInteger w)) : TypeInteger w :=
  match old with
  | none => t
  | some ot =>
    if t.lo = ot.lo ∧ t.hi = ot.hi then ot
    else if t.lo.sle ot.lo && ot.hi.sle t.hi then
      if ot.widen < t.widen then t
      else if ot.lo = ot.hi then t
      else if t.widen = widenMax then t.pushOut pushHi limit
      else make t.lo t.hi (t.widen + 1)
    else if ot.lo.sle t.lo && t.hi.sle ot.hi then ot
    else full w

/-- `TypeInt::widen`. -/
def widenInt (t : TypeInt) (old limit : Ty) : TypeInt :=
  t.widenWith (fun _ max => max) (old.isa .int) (limit.isa .int)

/-- The largest unsigned integer, as a long. -/
def maxJuint : BitVec 64 := BitVec.ofNat 64 (2 ^ 32 - 1)

/-- `TypeLong::widen`, which stops at the largest unsigned integer. -/
def widenLong (t : TypeLong) (old limit : Ty) : TypeLong :=
  t.widenWith (fun hi max => if maxJuint.sle max && hi.slt maxJuint then maxJuint else max)
    (old.isa .long) (limit.isa .long)

def widenTo : (s : Size) → TypeInteger s.bits → Ty → Ty → TypeInteger s.bits
  | .int => widenInt
  | .long => widenLong

/-- The range of all values. -/
def IsMaximum (t : TypeInteger w) : Prop := t.lo = BitVec.intMin w ∧ t.hi = BitVec.intMax w

instance (t : TypeInteger w) : Decidable t.IsMaximum := inferInstanceAs (Decidable (_ ∧ _))

/-- `TypeInt::narrow` and `TypeLong::narrow`. -/
def narrow (s : Size) (t : TypeInteger s.bits) (old : Option Ty) : TypeInteger s.bits :=
  if t.hi.sle t.lo then t
  else
    match old.bind (Ty.isa s) with
    | none => t
    | some ot =>
      if t.lo = ot.lo ∧ t.hi = ot.hi then ot
      else if ot.IsMaximum then t
      else if t.lo.slt ot.lo || ot.hi.slt t.hi then t
      else
        let nrange := t.hi - t.lo
        let orange := ot.hi - ot.lo
        -- The new range has to shrink a lot.
        if nrange < BitVec.allOnes s.bits - 1 &&
            (orange >>> 1) + BitVec.ofNat _ (smallint * 2) < nrange
        then ot
        else t

/-! ## The potential of widening -/

/-- The number of values of a range, less one. -/
def size (t : TypeInteger w) : Nat := (t.hi - t.lo).toNat

/-- How often the ends of a range can still be pushed out, where `pushHi` stops at `edge`. -/
def room (edge : BitVec w) (limit : Option (TypeInteger w)) (t : TypeInteger w) : Nat :=
  let max := (limit.map hi).getD (BitVec.intMax w)
  let min := (limit.map lo).getD (BitVec.intMin w)
  if t.IsMaximum then 0
  else if min.slt t.lo && t.hi.slt max then
    if edge.sle max && t.hi.slt edge then 3 else 2
  else 1

/-- Bounds how often a type can still be widened. `make` resets the count of a small
range, so that only its size measures progress. -/
def widenPotential (edge : BitVec w) (limit : Option (TypeInteger w)) (t : TypeInteger w) : Nat :=
  if t.lo.sle t.hi then
    if t.size ≤ smallint then 10 - t.size
    else widenMax - t.widen + t.room edge limit
  else 11

/-- Stop at `edge` on the way to the limit. -/
def pushTo (edge hi max : BitVec w) : BitVec w :=
  if edge.sle max && hi.slt edge then edge else max

variable {t u : TypeInteger w} {edge : BitVec w} {limit : Option (TypeInteger w)}

theorem isMaximum_iff :
    t.IsMaximum ↔ t.lo.toInt ≤ (BitVec.intMin w).toInt ∧ (BitVec.intMax w).toInt ≤ t.hi.toInt := by
  have hlo := BitVec.toInt_intMin_le t.lo
  have hhi := BitVec.toInt_le (x := t.hi)
  constructor
  · intro h
    rw [h.1, h.2]
    exact ⟨le_rfl, le_rfl⟩
  · intro h
    rw [BitVec.toInt_intMax] at h
    refine ⟨BitVec.eq_of_toInt_eq (by omega), BitVec.eq_of_toInt_eq ?_⟩
    rw [BitVec.toInt_intMax]
    omega

/-- Two ranges that contain one another are the same. -/
theorem Subset.antisymm (h : t.Subset u) (hu : u.Subset t) : u.lo = t.lo ∧ u.hi = t.hi := by
  rw [subset_iff] at h hu
  exact ⟨BitVec.eq_of_toInt_eq (by omega), BitVec.eq_of_toInt_eq (by omega)⟩

theorem Subset.nonempty (h : t.Subset u) (ht : t.lo.sle t.hi) : u.lo.sle u.hi := by
  rw [subset_iff] at h
  rw [BitVec.sle_iff_toInt_le] at ht ⊢
  omega

theorem room_le : t.room edge limit ≤ 3 := by
  simp only [room]
  split_ifs <;> omega

theorem room_maximum (h : t.IsMaximum) : t.room edge limit = 0 := if_pos h

/-- Only the range of all values has no room. -/
theorem room_pos (h : ¬ t.IsMaximum) : 0 < t.room edge limit := by
  simp only [room, if_neg h]
  split_ifs <;> omega

/-- A larger range has no more room. -/
theorem Subset.room_le (h : t.Subset u) : u.room edge limit ≤ t.room edge limit := by
  rw [subset_iff] at h
  simp only [room, isMaximum_iff, Bool.and_eq_true, BitVec.slt_iff_toInt_lt,
    BitVec.sle_iff_toInt_le]
  split_ifs <;> omega

theorem size_eq (h : t.lo.sle t.hi) : (t.size : Int) = t.hi.toInt - t.lo.toInt :=
  toNat_hi_sub_lo h

/-- A range that grows has more values. -/
theorem Subset.size_lt (h : t.Subset u) (ht : t.lo.sle t.hi)
    (hne : ¬ (u.lo = t.lo ∧ u.hi = t.hi)) : t.size < u.size := by
  rw [subset_iff] at h
  have hle := BitVec.sle_iff_toInt_le.mp ht
  have hu : u.lo.sle u.hi := BitVec.sle_iff_toInt_le.mpr (by omega)
  have hends : ¬ (u.lo.toInt = t.lo.toInt ∧ u.hi.toInt = t.hi.toInt) := by
    rwa [BitVec.toInt_inj, BitVec.toInt_inj]
  have hsize := size_eq ht
  have husize := size_eq hu
  omega

/-- `make` keeps the count of a large range, or raises it to its maximum. -/
theorem le_make_widen {lo hi : BitVec w} {n : Nat} (hn : n ≤ widenMax)
    (hlarge : smallint < (make lo hi n).size) : n ≤ (make lo hi n).widen := by
  have hsize : ¬ (hi - lo).toNat ≤ smallint := by
    simpa [size] using hlarge
  unfold make
  dsimp only
  rw [if_neg hsize]
  split_ifs <;> first | exact hn | exact le_rfl

theorem widenPotential_le (h : t.lo.sle t.hi) : t.widenPotential edge limit ≤ 10 := by
  have hroom : t.room edge limit ≤ 3 := room_le
  have hmax : widenMax - t.widen ≤ 3 := Nat.sub_le _ _
  rw [widenPotential, if_pos h]
  split_ifs <;> omega

/-- A range that grows lowers the potential. When it was large before, something other
than its size has to progress. -/
theorem widenPotential_lt (h : t.Subset u) (hu : u.lo.sle u.hi)
    (hne : ¬ (u.lo = t.lo ∧ u.hi = t.hi))
    (hlarge : smallint < t.size → smallint < u.size →
      widenMax - u.widen + u.room edge limit < widenMax - t.widen + t.room edge limit) :
    u.widenPotential edge limit < t.widenPotential edge limit := by
  by_cases ht : t.lo.sle t.hi
  · have hsize := h.size_lt ht hne
    have hroom : u.room edge limit ≤ 3 := room_le
    have hmax : widenMax - u.widen ≤ 3 := Nat.sub_le _ _
    have hsmall : smallint = 3 := rfl
    simp only [widenPotential, if_pos ht, if_pos hu]
    split_ifs with hus hts
    · omega
    · omega
    · omega
    · exact hlarge (by omega) (by omega)
  · have hpotential : t.widenPotential edge limit = 11 := if_neg ht
    rw [hpotential]
    exact Nat.lt_succ_of_le (widenPotential_le hu)

/-! ## One call of `widen` -/

theorem full_isMaximum : (full w).IsMaximum := ⟨full_lo, full_hi⟩

theorem subset_maximum (t : TypeInteger w) (h : u.IsMaximum) : t.Subset u := by
  rw [isMaximum_iff, BitVec.toInt_intMax] at h
  have hlo := BitVec.toInt_intMin_le t.lo
  have hhi := BitVec.toInt_le (x := t.hi)
  rw [subset_iff]
  omega

theorem pushTo_le {hi max : BitVec w} (h : hi.slt max) :
    hi.toInt ≤ (pushTo edge hi max).toInt := by
  rw [BitVec.slt_iff_toInt_lt] at h
  simp only [pushTo, Bool.and_eq_true, BitVec.slt_iff_toInt_lt]
  split_ifs <;> omega

theorem subset_pushOut (t : TypeInteger w) (limit : Option (TypeInteger w)) :
    t.Subset (t.pushOut (pushTo edge) limit) := by
  simp only [pushOut]
  split
  next hinside =>
    rw [Bool.and_eq_true] at hinside
    split
    · rw [subset_iff, make_lo, make_hi]
      exact ⟨le_rfl, pushTo_le hinside.2⟩
    · rw [subset_iff, make_lo, make_hi]
      rw [BitVec.slt_iff_toInt_lt] at hinside
      exact ⟨hinside.1.le, le_rfl⟩
  next => exact subset_maximum t full_isMaximum

theorem le_pushOut_widen (hlarge : smallint < (t.pushOut (pushTo edge) limit).size) :
    widenMax ≤ (t.pushOut (pushTo edge) limit).widen := by
  simp only [pushOut] at hlarge ⊢
  split_ifs at hlarge ⊢
  · exact le_make_widen le_rfl hlarge
  · exact le_make_widen le_rfl hlarge
  · exact le_make_widen le_rfl hlarge

theorem pushOut_of_not_inside {pushHi : BitVec w → BitVec w → BitVec w}
    (h : ¬ (((limit.map lo).getD (BitVec.intMin w)).slt t.lo &&
      t.hi.slt ((limit.map hi).getD (BitVec.intMax w))) = true) :
    t.pushOut pushHi limit = full w := by
  simp only [pushOut]
  rw [if_neg h]

/-- A range that does not reach its limits loses room when it is pushed out. -/
theorem room_pushOut_lt (h : ¬ t.IsMaximum) :
    (t.pushOut (pushTo edge) limit).room edge limit < t.room edge limit := by
  by_cases hinside : (((limit.map lo).getD (BitVec.intMin w)).slt t.lo &&
      t.hi.slt ((limit.map hi).getD (BitVec.intMax w))) = true
  · simp only [room, if_neg h, pushOut, if_pos hinside]
    simp only [Bool.and_eq_true, BitVec.slt_iff_toInt_lt] at hinside
    split
    · simp only [make_lo, make_hi, pushTo, Bool.and_eq_true, BitVec.slt_iff_toInt_lt,
        BitVec.sle_iff_toInt_le]
      split_ifs <;> omega
    · simp only [make_lo, make_hi, Bool.and_eq_true, BitVec.slt_iff_toInt_lt,
        BitVec.sle_iff_toInt_le]
      split_ifs <;> omega
  · rw [pushOut_of_not_inside hinside, room_maximum full_isMaximum]
    exact room_pos h

/-- The range of all values is pushed out to itself. -/
theorem pushOut_maximum {pushHi : BitVec w → BitVec w → BitVec w} (h : t.IsMaximum) :
    t.pushOut pushHi limit = full w := by
  apply pushOut_of_not_inside
  intro hinside
  rw [Bool.and_eq_true, h.1, BitVec.slt_iff_toInt_lt] at hinside
  have hmin := BitVec.toInt_intMin_le ((limit.map lo).getD (BitVec.intMin w))
  omega

/-- What `widen` does with a type that is not above the old one. -/
theorem widenWith_cases (hvalid : u.Valid) (h : t.higherEqual u = true) :
    u.widenWith (pushTo edge) (some t) limit = t ∧ u.Subset t ∨
    u.Subset (u.widenWith (pushTo edge) (some t) limit) ∧
      (u.widenWith (pushTo edge) (some t) limit).widenPotential edge limit <
        t.widenPotential edge limit := by
  have hsub := (within_of_higherEqual h).subset
  have hcounts : t.widen ≤ u.widen := widen_le_of_higherEqual h
  have hmax := hvalid.widen_le
  have hcontains : (u.lo.sle t.lo && t.hi.sle u.hi) = true := by
    rw [Bool.and_eq_true]
    exact hsub
  by_cases hsame : u.lo = t.lo ∧ u.hi = t.hi
  · left
    rw [widenWith, if_pos hsame, subset_iff, hsame.1, hsame.2]
    exact ⟨rfl, le_rfl, le_rfl⟩
  · right
    have hroom : u.room edge limit ≤ t.room edge limit := hsub.room_le
    rw [widenWith, if_neg hsame, if_pos hcontains]
    split
    next hwider =>
      refine ⟨.refl u, widenPotential_lt hsub hvalid.le hsame fun _ _ => ?_⟩
      omega
    next hwider =>
      split
      next hcon =>
        refine ⟨.refl u, widenPotential_lt hsub hvalid.le hsame fun hlarge _ => ?_⟩
        simp [size, hcon, smallint] at hlarge
      next hcon =>
        have hstrict {v : TypeInteger w} (hv : u.Subset v) : ¬ (v.lo = t.lo ∧ v.hi = t.hi) := by
          intro hends
          rw [Subset, hends.1, hends.2] at hv
          exact hsame (hsub.antisymm hv)
        split
        next hpush =>
          have hpushed : u.Subset (u.pushOut (pushTo edge) limit) := subset_pushOut u limit
          refine ⟨hpushed, widenPotential_lt (hsub.trans hpushed) (hpushed.nonempty hvalid.le)
            (hstrict hpushed) fun _ hlarge => ?_⟩
          have hwiden := le_pushOut_widen hlarge
          have hlt : (u.pushOut (pushTo edge) limit).room edge limit < t.room edge limit := by
            by_cases hmaximum : u.IsMaximum
            · rw [pushOut_maximum hmaximum, room_maximum full_isMaximum]
              exact room_pos fun ht => hsame (hsub.antisymm (subset_maximum u ht))
            · exact (room_pushOut_lt hmaximum).trans_le hroom
          omega
        next hcount =>
          have hmade : u.Subset (make u.lo u.hi (u.widen + 1)) := by
            rw [subset_iff, make_lo, make_hi]
            exact ⟨le_rfl, le_rfl⟩
          refine ⟨hmade, widenPotential_lt (hsub.trans hmade) (hmade.nonempty hvalid.le)
            (hstrict hmade) fun _ hlarge => ?_⟩
          have hwiden := le_make_widen (by omega) hlarge
          have hle : (make u.lo u.hi (u.widen + 1)).room edge limit ≤ t.room edge limit :=
            (hsub.trans hmade).room_le
          omega

/-! ## Runs of `widen` -/

/-- Where the upper end stops on the way to its limit. The smallest integer stops none. -/
def edgeOf : (s : Size) → BitVec s.bits
  | .int => BitVec.intMin 32
  | .long => maxJuint

theorem widenTo_eq (s : Size) (t : TypeInteger s.bits) (old limit : Ty) :
    widenTo s t old limit = t.widenWith (pushTo (edgeOf s)) (old.isa s) (limit.isa s) := by
  cases s with
  | int =>
    have hpush : (fun _ max => max) = pushTo (BitVec.intMin 32) := by
      funext hi max
      have hle := BitVec.toInt_intMin_le hi
      have hslt : ¬ (hi.slt (BitVec.intMin 32)) = true := by
        rw [BitVec.slt_iff_toInt_lt]
        omega
      simp [pushTo, hslt]
    rw [widenTo, widenInt, hpush]
    rfl
  | long => rfl

end TypeInteger

/-- The potential of any type, from which a node falls to an integer type. -/
def Ty.widenPotential (s : Size) (limit : Ty) (ty : Ty) : Nat :=
  match ty.isa s with
  | none => 11
  | some t => t.widenPotential (TypeInteger.edgeOf s) (limit.isa s)

theorem Ty.widenPotential_le (s : Size) (limit ty : Ty) : ty.widenPotential s limit ≤ 11 := by
  unfold widenPotential
  split
  next => exact le_rfl
  next t _ =>
    by_cases ht : t.lo.sle t.hi
    · exact (TypeInteger.widenPotential_le ht).trans (by omega)
    · rw [TypeInteger.widenPotential, if_neg ht]

/-- One step of the optimistic phase. -/
theorem widenTo_step {s : Size} {n : TypeInteger s.bits} {old limit : Ty} (hvalid : n.Valid)
    (habove : old.higherEqual s n = true) :
    n.Subset (n.widenTo s old limit) ∧ (Ty.integer s (n.widenTo s old limit) ≠ old →
      Ty.widenPotential s limit (.integer s (n.widenTo s old limit)) <
        Ty.widenPotential s limit old) := by
  rw [TypeInteger.widenTo_eq]
  cases old with
  | bottom => simp [Ty.higherEqual] at habove
  | top =>
    refine ⟨.refl n, fun _ => ?_⟩
    rw [Ty.widenPotential, Ty.isa_integer]
    exact Nat.lt_succ_of_le (TypeInteger.widenPotential_le hvalid.le)
  | integer s' t =>
    have hsize : s' = s := by
      by_contra hne
      simp [Ty.higherEqual, hne] at habove
    subst hsize
    rw [Ty.higherEqual_integer] at habove
    simp only [Ty.isa_integer, Ty.widenPotential]
    rcases TypeInteger.widenWith_cases hvalid habove with ⟨hsame, hsub⟩ | ⟨hsub, hlt⟩
    · rw [hsame]
      exact ⟨hsub, fun hne => absurd rfl hne⟩
    · exact ⟨hsub, fun _ => hlt⟩

/-- Every new type of the optimistic phase lies below the old one, and what `widen` makes of
it becomes the next old one. The type changes at most eleven times. -/
theorem widen_bounded (s : Size) (limit : Ty) (n : Nat → TypeInteger s.bits) (old : Nat → Ty)
    (hvalid : ∀ i, (n i).Valid) (hbelow : ∀ i, (old i).higherEqual s (n i) = true)
    (hwiden : ∀ i, old (i + 1) = .integer s ((n i).widenTo s (old i) limit)) :
    (∀ i, (n i).Subset ((n i).widenTo s (old i) limit)) ∧ (changes old).encard ≤ 11 := by
  have hlowers : Lowers (Ty.widenPotential s limit) old := by
    intro i hchange
    rw [hwiden i] at hchange ⊢
    exact (widenTo_step (hvalid i) (hbelow i)).2 hchange
  refine ⟨fun i => (widenTo_step (hvalid i) (hbelow i)).1, ?_⟩
  calc (changes old).encard
      ≤ Ty.widenPotential s limit (old 0) := hlowers.encard_changes_le
    _ ≤ 11 := by exact_mod_cast Ty.widenPotential_le s (old 0) limit

/-- The types of a counter that starts at 0 and is then seen to reach 5 and 6. -/
def counterTypes : Nat → TypeInt
  | 0 => .con 0
  | 1 => ⟨0, 5, 0⟩
  | 2 => ⟨0, 6, 0⟩
  | _ + 3 => ⟨0, 6, 1⟩

def counterOlds : Nat → Ty
  | 0 => .top
  | 1 => .integer .int (.con 0)
  | 2 => .integer .int ⟨0, 5, 0⟩
  | _ + 3 => .integer .int ⟨0, 6, 1⟩

theorem widen_bounded_counter :
    (∀ i, (counterTypes i).Subset
      ((counterTypes i).widenTo .int (counterOlds i) (.integer .int (.full 32)))) ∧
    (changes counterOlds).encard ≤ 11 := by
  apply widen_bounded .int
  · intro i
    match i with
    | 0 | 1 | 2 => exact ⟨by decide, by decide⟩
    | _ + 3 => exact ⟨rfl, Nat.le_of_ble_eq_true rfl⟩
  · intro i
    match i with
    | 0 | 1 | 2 => decide
    | _ + 3 => rfl
  · intro i
    match i with
    | 0 | 1 | 2 => decide
    | _ + 3 => rfl

/-! ## One call of `narrow` -/

namespace TypeInteger

variable {s : Size} {t ot : TypeInteger s.bits}

/-- Whatever is proposed, `narrow` accepts it or keeps the old type. -/
theorem narrow_eq_or (t ot : TypeInteger s.bits) :
    t.narrow s (some (.integer s ot)) = t ∨ t.narrow s (some (.integer s ot)) = ot := by
  simp only [narrow, Option.bind_some, Ty.isa_integer]
  split_ifs <;> simp

/-- A range that leaves out some value. -/
theorem size_lt_of_not_maximum (ht : t.lo.sle t.hi) (hmax : ¬ t.IsMaximum) :
    t.size < 2 ^ s.bits - 1 := by
  have hsize := size_eq ht
  have hlo := BitVec.le_toInt t.lo
  have hhi := BitVec.toInt_lt (x := t.hi)
  rw [isMaximum_iff, BitVec.toInt_intMax, BitVec.toInt_intMin_of_pos (by cases s <;> decide)]
    at hmax
  cases s with
  | int =>
    simp only [Size.bits] at *
    omega
  | long =>
    simp only [Size.bits] at *
    omega

/-- The halving test of `narrow`, in numbers. -/
theorem halves_iff (hot : ot.lo.sle ot.hi) (hmax : ¬ ot.IsMaximum) (hlt : t.size < ot.size) :
    (t.hi - t.lo < BitVec.allOnes s.bits - 1 &&
      ((ot.hi - ot.lo) >>> 1) + BitVec.ofNat _ (smallint * 2) < t.hi - t.lo) = true ↔
      ot.size / 2 + 6 < t.size := by
  have hsize := size_lt_of_not_maximum hot hmax
  have hall : (BitVec.allOnes s.bits - 1).toNat = 2 ^ s.bits - 2 := by
    cases s <;> rfl
  have hhalf : (((ot.hi - ot.lo) >>> 1) + BitVec.ofNat _ (smallint * 2)).toNat =
      ot.size / 2 + 6 := by
    rw [BitVec.toNat_add, BitVec.toNat_ushiftRight, Nat.shiftRight_eq_div_pow, pow_one]
    change (ot.size / 2 + (BitVec.ofNat s.bits 6).toNat) % _ = _
    cases s with
    | int =>
      simp only [Size.bits] at *
      rw [Nat.mod_eq_of_lt (by simp; omega)]
      rfl
    | long =>
      simp only [Size.bits] at *
      rw [Nat.mod_eq_of_lt (by simp; omega)]
      rfl
  rw [Bool.and_eq_true, decide_eq_true_eq, decide_eq_true_eq, BitVec.lt_def, BitVec.lt_def, hall,
    hhalf]
  change t.size < _ ∧ _ < t.size ↔ _
  omega

/-- A proposed type within the old one is accepted if it is a constant or shrinks a lot. -/
theorem narrow_cases (ht : t.lo.sle t.hi) (hsub : t.Subset ot) :
    t.narrow s (some (.integer s ot)) = ot ∨
    t.narrow s (some (.integer s ot)) = t ∧
      (t.isCon ∧ t.lo = ot.lo ∧ t.hi = ot.hi ∨
        t.size < ot.size ∧ (ot.IsMaximum ∨ t.size ≤ ot.size / 2 + 6)) := by
  have hot := hsub.nonempty ht
  have hsame : t.lo = ot.lo ∧ t.hi = ot.hi ∨ t.size < ot.size := by
    by_cases hends : ot.lo = t.lo ∧ ot.hi = t.hi
    · exact .inl ⟨hends.1.symm, hends.2.symm⟩
    · exact .inr (hsub.size_lt ht hends)
  have hinside : ¬ (t.lo.slt ot.lo || ot.hi.slt t.hi) = true := by
    rw [subset_iff] at hsub
    rw [Bool.or_eq_true, BitVec.slt_iff_toInt_lt, BitVec.slt_iff_toInt_lt]
    omega
  simp only [narrow, Option.bind_some, Ty.isa_integer, if_neg hinside]
  split
  next hcon =>
    right
    rw [BitVec.sle_iff_toInt_le] at ht hcon
    have hsize := size_eq (BitVec.sle_iff_toInt_le.mpr ht)
    refine ⟨rfl, hsame.imp (fun h => ⟨isCon_iff.mpr ?_, h⟩) fun h => ⟨h, .inr (by omega)⟩⟩
    exact BitVec.eq_of_toInt_eq (by omega)
  next hcon =>
    split
    next => exact .inl rfl
    next hne =>
      have hlt := hsame.resolve_left hne
      split
      next hmax => exact .inr ⟨rfl, .inr ⟨hlt, .inl hmax⟩⟩
      next hmax =>
        have hiff := halves_iff hot hmax hlt
        split
        next => exact .inl rfl
        next hshrinks =>
          exact .inr ⟨rfl, .inr ⟨hlt, .inr (Nat.le_of_not_lt fun h => hshrinks (hiff.mpr h))⟩⟩

/-! ## The potential of narrowing -/

/-- Bounds how often a range can still be narrowed: what exceeds twelve is halved, and
below that every value counts. -/
def narrowPotential (t : TypeInteger s.bits) : Nat :=
  (if t.IsMaximum then 1 else 0) + Nat.size (t.size - 12) + min t.size 12

/-- The range of a type. -/
def range (t : TypeInteger w) : BitVec w × BitVec w := (t.lo, t.hi)

theorem narrowPotential_of_range (h : t.range = ot.range) :
    t.narrowPotential = ot.narrowPotential := by
  change narrowPotential ⟨t.range.1, t.range.2, 0⟩ = narrowPotential ⟨ot.range.1, ot.range.2, 0⟩
  rw [h]

theorem size_lt_size_of_half {m n : Nat} (hpos : 0 < n) (hhalf : m ≤ n / 2) :
    Nat.size m < Nat.size n := by
  have hsize : 0 < Nat.size n := Nat.size_pos.mpr hpos
  have hlt := Nat.lt_size_self n
  obtain ⟨k, hk⟩ := Nat.exists_eq_succ_of_ne_zero hsize.ne'
  rw [hk, pow_succ] at hlt
  have hle : Nat.size m ≤ k := Nat.size_le.mpr (by omega)
  omega

theorem narrowPotential_lt (hsub : t.Subset ot) (hlt : t.size < ot.size)
    (haccepted : ot.IsMaximum ∨ t.size ≤ ot.size / 2 + 6) :
    t.narrowPotential < ot.narrowPotential := by
  have hmono : Nat.size (t.size - 12) ≤ Nat.size (ot.size - 12) := Nat.size_le_size (by omega)
  unfold narrowPotential
  by_cases hmax : ot.IsMaximum
  · have hnot : ¬ t.IsMaximum := by
      rintro ⟨hlo, hhi⟩
      rw [size, size, hlo, hhi, hmax.1, hmax.2] at hlt
      exact lt_irrefl _ hlt
    rw [if_pos hmax, if_neg hnot]
    omega
  · have hnot : ¬ t.IsMaximum := fun h => hmax (by
      obtain ⟨hlo, hhi⟩ := hsub.antisymm (subset_maximum ot h)
      exact ⟨hlo.trans h.1, hhi.trans h.2⟩)
    rw [if_neg hmax, if_neg hnot]
    have hhalf := haccepted.resolve_left hmax
    by_cases hsmall : ot.size ≤ 12
    · omega
    · have := size_lt_size_of_half (m := t.size - 12) (n := ot.size - 12) (by omega) (by omega)
      omega

theorem narrowPotential_le (t : TypeInteger s.bits) : t.narrowPotential ≤ s.bits + 13 := by
  have hsize : Nat.size (t.size - 12) ≤ s.bits :=
    Nat.size_le.mpr ((Nat.sub_le _ _).trans_lt (t.hi - t.lo).isLt)
  unfold narrowPotential
  split_ifs <;> omega

/-- Bounds how often a type can still be narrowed. At a constant only the widen count is
left to fall. -/
def countedPotential (t : TypeInteger s.bits) : Nat :=
  t.narrowPotential + if t.isCon then t.widen else widenMax

/-- A range that loses values loses potential. -/
theorem countedPotential_lt (ht : t.widen ≤ widenMax) (hot : ¬ ot.isCon = true)
    (hlt : t.narrowPotential < ot.narrowPotential) :
    t.countedPotential < ot.countedPotential := by
  unfold countedPotential
  rw [if_neg hot]
  split_ifs <;> omega

theorem countedPotential_le (ht : t.widen ≤ widenMax) : t.countedPotential ≤ s.bits + 16 := by
  have hle := t.narrowPotential_le
  have hmax : widenMax = 3 := rfl
  unfold countedPotential
  split_ifs <;> omega

/-- One step of the pessimistic phase, as far as the range goes. -/
theorem narrow_range_lt (ht : t.lo.sle t.hi) (hsub : t.Subset ot)
    (hchange : (t.narrow s (some (.integer s ot))).range ≠ ot.range) :
    (t.narrow s (some (.integer s ot))).narrowPotential < ot.narrowPotential := by
  rcases narrow_cases ht hsub with hkept | ⟨hnew, ⟨-, hlo, hhi⟩ | ⟨hlt, haccepted⟩⟩
  · rw [hkept] at hchange
    exact absurd rfl hchange
  · rw [hnew, range, hlo, hhi] at hchange
    exact absurd rfl hchange
  · rw [hnew]
    exact narrowPotential_lt hsub hlt haccepted

/-- One step of the pessimistic phase. -/
theorem narrow_lt (ht : t.Valid) (hsub : t.Subset ot)
    (hcount : ot.isCon = true → t.widen ≤ ot.widen)
    (hchange : t.narrow s (some (.integer s ot)) ≠ ot) :
    (t.narrow s (some (.integer s ot))).countedPotential < ot.countedPotential := by
  rcases narrow_cases ht.le hsub with hkept | ⟨hnew, ⟨hcon, hlo, hhi⟩ | ⟨hlt, haccepted⟩⟩
  · exact absurd hkept hchange
  · rw [hnew] at hchange ⊢
    have hocon : ot.isCon = true := by
      rw [isCon_iff] at hcon ⊢
      rw [← hlo, ← hhi, hcon]
    have hle := hcount hocon
    have hne : t.widen ≠ ot.widen := by
      intro heq
      cases t
      cases ot
      exact hchange (by simp_all)
    have hrange : t.narrowPotential = ot.narrowPotential :=
      narrowPotential_of_range (Prod.ext hlo hhi)
    rw [countedPotential, countedPotential, if_pos hcon, if_pos hocon]
    omega
  · rw [hnew]
    refine countedPotential_lt ht.widen_le (fun hcon => ?_) (narrowPotential_lt hsub hlt haccepted)
    rw [size, size, isCon_iff.mp hcon] at hlt
    simp at hlt

end TypeInteger

/-- Every proposed type of the pessimistic phase is a non-empty part of the current one. The
range of the current type then changes at most 64 times, or 128 times for longs, and so does
the type if its widen count does not rise at a constant. -/
theorem narrow_bounded (s : Size) (proposed current : Nat → TypeInteger s.bits)
    (hnonempty : ∀ i, (proposed i).lo.sle (proposed i).hi)
    (hwithin : ∀ i, (proposed i).Subset (current i))
    (hnarrow : ∀ i, current (i + 1) = (proposed i).narrow s (some (.integer s (current i)))) :
    (∀ i, current (i + 1) = proposed i ∨ current (i + 1) = current i) ∧
    (changes fun i => (current i).range).encard ≤ (2 * s.bits : Nat) ∧
    ((current 0).widen ≤ TypeInteger.widenMax → (∀ i, (proposed i).widen ≤ TypeInteger.widenMax) →
      (∀ i, (current i).isCon = true → (proposed i).widen ≤ (current i).widen) →
      (changes current).encard ≤ (2 * s.bits : Nat)) := by
  have hbits : 16 ≤ s.bits := by
    cases s <;> decide
  refine ⟨fun i => ?_, ?_, fun hstart hwiden hcount => ?_⟩
  · rw [hnarrow i]
    exact TypeInteger.narrow_eq_or _ _
  · let potential (r : BitVec s.bits × BitVec s.bits) : Nat :=
      TypeInteger.narrowPotential ⟨r.1, r.2, 0⟩
    have hlowers : Lowers potential fun i => (current i).range := by
      intro i hchange
      dsimp only at hchange ⊢
      rw [hnarrow i] at hchange ⊢
      exact TypeInteger.narrow_range_lt (hnonempty i) (hwithin i) hchange
    calc (changes fun i => (current i).range).encard
        ≤ (current 0).narrowPotential := hlowers.encard_changes_le
      _ ≤ (2 * s.bits : Nat) := by
          have hle := (current 0).narrowPotential_le
          exact_mod_cast hle.trans (by omega)
  · have hlowers : Lowers TypeInteger.countedPotential current := by
      intro i hchange
      rw [hnarrow i] at hchange ⊢
      exact TypeInteger.narrow_lt ⟨hnonempty i, hwiden i⟩ (hwithin i) (hcount i) hchange
    calc (changes current).encard
        ≤ (current 0).countedPotential := hlowers.encard_changes_le
      _ ≤ (2 * s.bits : Nat) := by
          have hle := TypeInteger.countedPotential_le hstart
          exact_mod_cast hle.trans (by omega)

/-- An array length that a test bounds. -/
def boundedTypes : Nat → TypeInt
  | 0 => ⟨0, 1000, 0⟩
  | _ + 1 => ⟨0, 100, 0⟩

theorem narrow_bounded_test :
    (∀ i, boundedTypes (i + 1) = ⟨0, 100, 0⟩ ∨ boundedTypes (i + 1) = boundedTypes i) ∧
    (changes fun i => (boundedTypes i).range).encard ≤ (2 * Size.int.bits : Nat) ∧
    (changes boundedTypes).encard ≤ (2 * Size.int.bits : Nat) := by
  obtain ⟨heither, hrange, htype⟩ := narrow_bounded .int (fun _ => ⟨0, 100, 0⟩) boundedTypes
    (fun _ => by decide)
    (fun i => match i with
      | 0 => by decide
      | _ + 1 => TypeInteger.subset_iff.mpr ⟨le_rfl, le_rfl⟩)
    (fun i => match i with
      | 0 => by decide
      | _ + 1 => rfl)
  exact ⟨heither, hrange, htype (by decide) (fun _ => by decide) fun _ _ => Nat.zero_le _⟩

/-- Empty types, each within the one before. -/
def emptyTypes (i : Nat) : TypeInt := ⟨BitVec.ofNat 32 (min i 70 + 1), 0, 0⟩

/-- A constant with two widen counts in turn. -/
def constantTypes (i : Nat) : TypeInt := ⟨7, 7, i % 2⟩

/-- Empty types and constants are accepted without a test: a sequence of them changes more
often. -/
theorem narrow_not_bounded :
    ((∀ i, (emptyTypes (i + 1)).higherEqual (emptyTypes i) = true) ∧
      (∀ i, emptyTypes (i + 1) =
        (emptyTypes (i + 1)).narrow .int (some (.integer .int (emptyTypes i)))) ∧
      64 < (changes emptyTypes).encard) ∧
    (∀ i, (constantTypes (i + 1)).Subset (constantTypes i)) ∧
      (∀ i, constantTypes (i + 1) =
        (constantTypes (i + 1)).narrow .int (some (.integer .int (constantTypes i)))) ∧
      64 < (changes constantTypes).encard := by
  have hempty i : (emptyTypes i).hi.sle (emptyTypes i).lo = true := by
    have hle : min i 70 ≤ 70 := min_le_right _ _
    rw [emptyTypes]
    generalize min i 70 = k at hle
    revert k
    decide
  refine ⟨⟨fun i => ?_, fun i => ?_, ?_⟩, fun i => ?_, fun i => ?_, ?_⟩
  · rcases Nat.lt_or_ge i 70 with hlt | hge
    · revert hlt
      revert i
      decide
    · rw [emptyTypes, emptyTypes, min_eq_right hge, min_eq_right (by omega)]
      decide
  · rw [TypeInteger.narrow, if_pos (hempty _)]
  · have hsub : ((Finset.range 70 : Finset Nat) : Set Nat) ⊆ changes emptyTypes := by
      intro i hi
      have hne : ∀ i < 70, emptyTypes (i + 1) ≠ emptyTypes i := by decide
      exact hne i (Finset.mem_range.mp hi)
    have hcard := Set.encard_le_encard hsub
    rw [Set.encard_coe_eq_coe_finsetCard, Finset.card_range] at hcard
    exact lt_of_lt_of_le (by norm_num) hcard
  · exact TypeInteger.subset_iff.mpr ⟨le_rfl, le_rfl⟩
  · rfl
  · have huniv : changes constantTypes = Set.univ := by
      refine Set.eq_univ_of_forall fun i heq => ?_
      have hcount : (i + 1) % 2 = i % 2 := congrArg TypeInteger.widen heq
      omega
    rw [huniv, Set.encard_univ, ENat.card_eq_top_of_infinite]
    exact ENat.natCast_lt_top 64

end HotSpot.Opto
