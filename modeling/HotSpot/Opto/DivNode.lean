import HotSpot.Lib.SignedWord
import HotSpot.Opto.MagicConstants
import HotSpot.Opto.Node
import HotSpot.Utilities.GlobalDefinitions
import Mathlib.Data.Nat.Prime.Basic

/-! # Strength reduction of division

`transform_int_divide` and `transform_long_divide` of `divnode.cpp`, and the
`Ideal` of the nodes that call them. The graph a division by a constant is
replaced by computes the same quotient.
-/

namespace HotSpot.Opto

open Node

/-! ## The graphs -/

/-- An AND mask of sufficient size clears the low bits. -/
def maskClears {w : Nat} (andcon d : BitVec w) : Bool :=
  andcon.slt 0#w && isPowerOf2 ((-andcon).signExtend 64) && d.sle (-andcon)

/-- The dividend to shift, and whether it needs rounding. The types that need none
are `nonneg`; they are not the same ones for ints and for longs. -/
def skipRounding (phase : Phase) (s : Size) (nonneg : TypeInteger s.bits → Bool) (dividend : Node)
    (d : BitVec s.bits) : Node × Bool :=
  if ((phase.type dividend).isa s).any nonneg then (dividend, false)
  else
    match dividend with
    | .bin idx (.arith s' .and) x y =>
      match (phase.type y).isa s with
      | some t =>
        if s' = s ∧ t.isCon ∧ maskClears t.lo d then
          -- Remove AND if it clears bits which will be shifted
          (if -t.lo = d then x else .bin idx (.arith s' .and) x y, false)
        else (dividend, true)
      | none => (dividend, true)
    | _ => (dividend, true)

/-- You need to add 0 for positive numbers, and `2 ^ l - 1` for negative numbers. -/
def roundUp (s : Size) (dividend : Node) (l : Int) : Node :=
  let sign := newArith s .rshift dividend (intcon (s.bits - 1))
  let round := newArith s .urshift sign (intcon (s.bits - l))
  newArith s .add dividend round

/-- Division by plus or minus a power of two. -/
def divideByPowerOf2 (phase : Phase) (s : Size) (nonneg : TypeInteger s.bits → Bool)
    (dividend : Node) (d : BitVec s.bits) (dPos : Bool) : Node :=
  let (dividend, needsRounding) := skipRounding phase s nonneg dividend d
  let l := log2Intptr ((d - 1#s.bits).signExtend 64) + 1
  let dividend := if needsRounding then roundUp s dividend l else dividend
  let q := newArith s .rshift dividend (intcon l)
  if dPos then q else newArith s .sub (newCon s 0) q

/-- Adjust the quotient by subtracting -1 for a negative dividend. If the divisor is
negative, swapping the operands negates the quotient. -/
def subtractSign (s : Size) (dividend addend0 : Node) (dPos : Bool) : Node :=
  let addend1 := newArith s .rshift dividend (intcon (s.bits - 1))
  if dPos then newArith s .sub addend0 addend1 else newArith s .sub addend1 addend0

/-- The quotient before the adjustment, by a 64-bit multiplication. -/
def intMulHi (dividend : Node) (magicConst : BitVec 32) (shiftConst : Nat) : Node :=
  let magic := longcon magicConst.toInt
  let dividendLong := newUn .convI2L dividend
  let mulHi := newArith .long .mul dividendLong magic
  if magicConst.slt 0#32 then
    let mulHi := newArith .long .rshift mulHi (intcon 32)
    let mulHi := newUn .convL2I mulHi
    -- The multiplier is too large for a 32 bit constant; add 1 dividend back in.
    let mulHi := newArith .int .add dividend mulHi
    if shiftConst ≠ 0 then newArith .int .rshift mulHi (intcon shiftConst) else mulHi
  else
    let mulHi := newArith .long .rshift mulHi (intcon (32 + shiftConst))
    newUn .convL2I mulHi

/-- A division by a constant that is neither zero nor the smallest number. Ints and
longs differ in the types `nonneg` that need no rounding and in the product `mulHi`. -/
def transformDivide (phase : Phase) (s : Size) (nonneg : TypeInteger s.bits → Bool)
    (mulHi : BitVec s.bits → Option Node) (dividend : Node) (divisor : BitVec s.bits) :
    Option Node :=
  let dPos := (0#s.bits).sle divisor
  let d := if dPos then divisor else -divisor
  if d = 1#s.bits then
    -- Just negate the value
    if dPos then none else some (newArith s .sub (newCon s 0) dividend)
  else if isPowerOf2 (d.signExtend 64) then
    some (divideByPowerOf2 phase s nonneg dividend d dPos)
  else (mulHi d).map fun addend0 => subtractSign s dividend addend0 dPos

def transformIntDivide (phase : Phase) (dividend : Node) (divisor : BitVec 32) : Option Node :=
  transformDivide phase .int (fun t => (0#32).sle t.lo)
    (fun d => (magicIntDivideConstants d).map fun (magicConst, shiftConst) =>
      intMulHi dividend magicConst shiftConst)
    dividend divisor

/-- Upper half of a 64 bit x 64 bit multiplication. -/
def longByLongMulhi (phase : Phase) (dividend : Node) (magicConst : BitVec 64) : Node :=
  if phase.hasMatchRuleMulHiL then .new .mulHiL dividend (longcon magicConst.toInt)
  else
    let u0 := newArith .long .and dividend (longcon 0xFFFFFFFF)
    let u1 := newArith .long .rshift dividend (intcon 32)
    let v0 := longcon (magicConst &&& 0xFFFFFFFF#64).toInt
    let v1 := longcon (magicConst.sshiftRight 32).toInt
    let w0 := newArith .long .mul u0 v0
    let u1v0 := newArith .long .mul u1 v0
    let temp := newArith .long .urshift w0 (intcon 32)
    let t := newArith .long .add u1v0 temp
    let w1 := newArith .long .and t (longcon 0xFFFFFFFF)
    let w2 := newArith .long .rshift t (intcon 32)
    let u0v1 := newArith .long .mul u0 v1
    let w1 := newArith .long .add u0v1 w1
    let u1v1 := newArith .long .mul u1 v1
    let temp1 := newArith .long .add u1v1 w2
    let temp2 := newArith .long .rshift w1 (intcon 32)
    newArith .long .add temp1 temp2

/-- The quotient before the adjustment, by the upper half of a multiplication. -/
def longMulHi (phase : Phase) (dividend : Node) (magicConst : BitVec 64)
    (shiftConst : Nat) : Node :=
  let mulHi := longByLongMulhi phase dividend magicConst
  -- The multiplier is too large for a 64 bit constant; add 1 dividend back in.
  let mulHi := if magicConst.slt 0#64 then newArith .long .add dividend mulHi else mulHi
  if shiftConst ≠ 0 then newArith .long .rshift mulHi (intcon shiftConst) else mulHi

def transformLongDivide (phase : Phase) (dividend : Node) (divisor : BitVec 64) : Option Node :=
  transformDivide phase .long (fun t => (0#64).slt t.lo)
    (fun d => (magicLongDivideConstants d).map fun (magicConst, shiftConst) =>
      longMulHi phase dividend magicConst shiftConst)
    dividend divisor

/-- `DivINode::Ideal` and `DivLNode::Ideal` of a node without a dead control input. -/
def divIdeal (phase : Phase) (s : Size)
    (transformDivide : Phase → Node → BitVec s.bits → Option Node) (in1 in2 : Node) :
    Option Node :=
  match (phase.type in2).isa s with
  | none => none
  | some t =>
    if t = .con 1#s.bits then none
    else if t.isCon = false then none
    -- Dividing by zero constant does not idealize
    else if t.lo = 0#s.bits then none
    -- Dividing by MININT does not optimize as a power-of-2 shift.
    else if t.lo = BitVec.intMin s.bits then none
    else transformDivide phase in1 t.lo

def DivINode.ideal (phase : Phase) (in1 in2 : Node) : Option Node :=
  divIdeal phase .int transformIntDivide in1 in2

def DivLNode.ideal (phase : Phase) (in1 in2 : Node) : Option Node :=
  divIdeal phase .long transformLongDivide in1 in2

/-! ## Division by a power of two -/

theorem toNat_twoPow_sub_one {w l : Nat} (hlt : l < w) :
    (BitVec.twoPow w l - 1#w).toNat = 2 ^ l - 1 := by
  have hone : (1#w).toNat = 1 := by
    rw [BitVec.toNat_ofNat, Nat.mod_eq_of_lt (Nat.one_lt_two_pow (by omega))]
  have hpow := Nat.two_pow_pos l
  rw [BitVec.toNat_sub_of_le, BitVec.toNat_twoPow_of_lt hlt, hone]
  rw [BitVec.le_def, BitVec.toNat_twoPow_of_lt hlt, hone]
  omega

/-- What the tests of a divisor that is a power of two establish. -/
theorem exists_two_pow {s : Size} {d : BitVec s.bits} (hpos : 0 < d.toInt) (hone : d ≠ 1#s.bits)
    (hpower : isPowerOf2 (d.signExtend 64) = true) :
    ∃ l : Nat, 0 < l ∧ l < s.bits ∧ d = BitVec.twoPow s.bits l ∧ d.toInt = 2 ^ l ∧
      log2Intptr ((d - 1#s.bits).signExtend 64) + 1 = l := by
  have hle : s.bits ≤ 64 := by cases s <;> decide
  have hbits : 1 < s.bits := by cases s <;> decide
  have hnat := toInt_eq_toNat_of_nonneg hpos.le
  rw [isPowerOf2_iff, toNat_signExtend_of_nonneg hle hpos.le] at hpower
  obtain ⟨l, hl⟩ := hpower
  have hlt : l < s.bits := by
    rw [← Nat.pow_lt_pow_iff_right (by decide : 1 < 2), ← hl]
    exact d.isLt
  have hd : d = BitVec.twoPow s.bits l := by
    apply BitVec.eq_of_toNat_eq
    rw [hl, BitVec.toNat_twoPow, Nat.mod_eq_of_lt (Nat.pow_lt_pow_right (by decide) hlt)]
  have honeNat : (1#s.bits).toNat = 1 := by
    rw [BitVec.toNat_ofNat, Nat.mod_eq_of_lt (Nat.one_lt_two_pow (by omega))]
  have hl0 : 0 < l := by
    rw [Nat.pos_iff_ne_zero]
    rintro rfl
    apply hone
    apply BitVec.eq_of_toNat_eq
    rw [hl, honeNat, Nat.pow_zero]
  have htwo : 2 ≤ d.toNat := by
    rw [hl]
    exact Nat.pow_le_pow_right (by decide : 0 < 2) hl0
  have hpred : (d - 1#s.bits).toNat = d.toNat - 1 := by
    rw [hl, hd, toNat_twoPow_sub_one hlt]
  have hpredInt : 0 ≤ (d - 1#s.bits).toInt := by
    have hd2 := hnat
    rw [BitVec.toInt_eq_toNat_cond] at hd2 ⊢
    split at hd2 <;> split <;> omega
  refine ⟨l, hl0, hlt, hd, by rw [hnat, hl]; exact_mod_cast rfl, ?_⟩
  have hext := toNat_signExtend_of_nonneg hle hpredInt
  have hlog : (d.toNat - 1).log2 = l - 1 := by
    rw [Nat.log2_eq_iff (by omega), hl]
    have hsucc : 2 ^ l = 2 * 2 ^ (l - 1) := by
      rw [← Nat.pow_succ']
      congr 1
      omega
    rw [show l - 1 + 1 = l by omega]
    omega
  rw [log2Intptr_eq, hext, hpred, hlog]
  · omega
  · intro hzero
    rw [hzero, hpred] at hext
    change 0 = _ at hext
    omega

/-- What a mask that clears enough bits is. -/
theorem maskClears_eq {s : Size} {l : Nat} {andcon d : BitVec s.bits} (hdInt : d.toInt = 2 ^ l)
    (h : maskClears andcon d = true) :
    ∃ j, l ≤ j ∧ j < s.bits ∧ andcon = -BitVec.twoPow s.bits j := by
  have hle : s.bits ≤ 64 := by cases s <;> decide
  simp only [maskClears, Bool.and_eq_true, BitVec.sle_iff_toInt_le, hdInt] at h
  obtain ⟨⟨-, hpower⟩, hge⟩ := h
  have hone : (0 : Int) < 2 ^ l := by positivity
  have hnat := toInt_eq_toNat_of_nonneg (show 0 ≤ (-andcon).toInt by omega)
  rw [isPowerOf2_iff, toNat_signExtend_of_nonneg hle (by omega)] at hpower
  obtain ⟨j, hj⟩ := hpower
  have hjlt : j < s.bits := by
    rw [← Nat.pow_lt_pow_iff_right (by decide : 1 < 2), ← hj]
    exact (-andcon).isLt
  refine ⟨j, ?_, hjlt, ?_⟩
  · rw [hnat, hj] at hge
    rw [← Nat.pow_le_pow_iff_right (by decide : 1 < 2)]
    exact_mod_cast hge
  · rw [← BitVec.neg_eq_iff_eq_neg]
    apply BitVec.eq_of_toNat_eq
    rw [hj, BitVec.toNat_twoPow_of_lt hjlt]

/-- The dividend to shift: its shift is the rounded quotient, with the rounding where
it is needed. -/
theorem skipRounding_eval {phase : Phase} {env : Env} {s : Size}
    {nonneg : TypeInteger s.bits → Bool} (hnonneg : ∀ t, nonneg t = true → 0 ≤ t.lo.toInt)
    {dividend : Node} (hrespects : phase.Respects env dividend) {l : Nat}
    (hlt : l < s.bits) {d : BitVec s.bits} (hd : d = BitVec.twoPow s.bits l)
    (hdInt : d.toInt = 2 ^ l) {dividend' : Node} {needsRounding : Bool}
    (h : skipRounding phase s nonneg dividend d = (dividend', needsRounding)) :
    if needsRounding then dividend' = dividend
    else (dividend'.evalAt env s).sshiftRight l =
      BitVec.ofInt s.bits ((dividend.evalAt env s).toInt.tdiv (2 ^ l)) := by
  have hbits : 0 < s.bits := by cases s <;> decide
  unfold skipRounding at h
  split at h
  next hany =>
    obtain ⟨rfl, rfl⟩ := Prod.mk.inj h
    obtain ⟨t, ht, hlo⟩ := (Option.any_eq_true _ _).mp hany
    rw [Ty.isa_eq_some] at ht
    have hcontains := TypeInteger.contains_iff.mp (hrespects.contains ht)
    have := hnonneg t hlo
    simp only [Bool.false_eq_true, if_false]
    rw [sshiftRight_eq_ofInt, Int.tdiv_eq_ediv_of_nonneg (by omega)]
  next =>
    split at h
    next idx s' x y _ =>
      split at h
      next t ht =>
        split at h
        next hcond =>
          obtain ⟨rfl, hcon, hmask⟩ := hcond
          obtain ⟨rfl, rfl⟩ := Prod.mk.inj h
          rw [Ty.isa_eq_some] at ht
          have hy := hrespects.right.eq_of_isCon ht hcon
          obtain ⟨j, hlj, hj, hcon'⟩ := maskClears_eq hdInt hmask
          have hand : (Node.bin idx (.arith s' .and) x y).evalAt env s' =
              x.evalAt env s' &&& -BitVec.twoPow s'.bits j := by
            rw [evalAt_arith, hy, hcon']
            rfl
          have hdvd := two_pow_dvd_toInt_and hlj hj (x.evalAt env s')
          simp only [Bool.false_eq_true, if_false]
          rw [Int.tdiv_eq_ediv_of_dvd (by rwa [hand]), ← sshiftRight_eq_ofInt]
          split
          next heq =>
            rw [hcon', BitVec.neg_neg, hd] at heq
            rw [hand, heq, sshiftRight_and_mask hlt]
          next => rfl
        next =>
          obtain ⟨rfl, rfl⟩ := Prod.mk.inj h
          rfl
      next =>
        obtain ⟨rfl, rfl⟩ := Prod.mk.inj h
        rfl
    next =>
      obtain ⟨rfl, rfl⟩ := Prod.mk.inj h
      rfl

theorem roundUp_eval (env : Env) {s : Size} {l : Nat} (hl : 0 < l) (hlt : l < s.bits)
    (dividend : Node) :
    ((roundUp s dividend l).evalAt env s).sshiftRight l =
      BitVec.ofInt s.bits ((dividend.evalAt env s).toInt.tdiv (2 ^ l)) := by
  have hsign : ((s.bits : Int) - 1) = ((s.bits - 1 : Nat) : Int) := by omega
  have hround : ((s.bits : Int) - l) = ((s.bits - l : Nat) : Int) := by omega
  rw [← sshiftRight_add_sign hl hlt]
  rw [roundUp, hsign, hround, evalAt_newArith, evalAt_urshift_intcon _ _ _ (by omega),
    evalAt_rshift_intcon _ _ _ (by omega)]
  rfl

theorem divideByPowerOf2_eval {phase : Phase} {env : Env} {s : Size}
    {nonneg : TypeInteger s.bits → Bool} (hnonneg : ∀ t, nonneg t = true → 0 ≤ t.lo.toInt)
    {dividend : Node} (hrespects : phase.Respects env dividend) {d : BitVec s.bits}
    (hpos : 0 < d.toInt) (hone : d ≠ 1#s.bits) (hpower : isPowerOf2 (d.signExtend 64) = true)
    (dPos : Bool) :
    (divideByPowerOf2 phase s nonneg dividend d dPos).evalAt env s =
      if dPos then (dividend.evalAt env s).sdiv d else -(dividend.evalAt env s).sdiv d := by
  obtain ⟨l, hl, hlt, hd, hdInt, hlog⟩ := exists_two_pow hpos hone hpower
  unfold divideByPowerOf2
  rcases hskip : skipRounding phase s nonneg dividend d with ⟨dividend', needsRounding⟩
  have hspec := skipRounding_eval hnonneg hrespects hlt hd hdInt hskip
  have hshift :
      ((if needsRounding then roundUp s dividend' l else dividend').evalAt env s).sshiftRight l =
      (dividend.evalAt env s).sdiv d := by
    rw [sdiv_eq_ofInt, hdInt]
    split
    next hneeds =>
      rw [if_pos hneeds] at hspec
      rw [hspec, roundUp_eval env hl hlt]
    next hneeds =>
      rw [if_neg hneeds] at hspec
      exact hspec
  simp only [hlog]
  split
  · rw [evalAt_rshift_intcon _ _ _ hlt, hshift]
  · rw [evalAt_newArith, evalAt_rshift_intcon _ _ _ hlt, hshift, evalAt_newCon]
    simp [ArithOp.apply]

/-! ## Division by multiplication -/

section Magic

variable {w : Nat} (x m : BitVec w)

/-- The product's upper half, for the multiplier as an unsigned number. -/
theorem mulHi_addBack : (if m.slt 0#w then x + mulHi x m else mulHi x m) =
    BitVec.ofInt w (x.toInt * m.toNat / 2 ^ w) := by
  have hm := BitVec.toInt_eq_toNat_cond m
  have hlt := m.isLt
  simp only [BitVec.slt_iff_toInt_lt, BitVec.toInt_zero]
  split
  next hneg =>
    have hm' : m.toInt = m.toNat - 2 ^ w := by
      split at hm
      · omega
      · exact_mod_cast hm
    have hpos : (2 : Int) ^ w ≠ 0 := by positivity
    have hquot : x.toInt * m.toInt / 2 ^ w = x.toInt * m.toNat / 2 ^ w - x.toInt := by
      rw [hm', Int.mul_sub, Int.sub_eq_add_neg, ← Int.neg_mul, Int.add_mul_ediv_right _ _ hpos]
      omega
    nth_rewrite 1 [← BitVec.ofInt_toInt (x := x)]
    rw [mulHi, ← BitVec.ofInt_add, hquot]
    congr 1
    omega
  next hnonneg => rw [mulHi, toInt_eq_toNat_of_nonneg (x := m) (by omega)]

/-- The upper half is a signed number of the width, so that it can be shifted further. -/
theorem ofInt_mulHi_sshiftRight (s : Nat) :
    (BitVec.ofInt w (x.toInt * m.toNat / 2 ^ w)).sshiftRight s =
      BitVec.ofInt w (x.toInt * m.toNat / 2 ^ (w + s)) := by
  rcases Nat.eq_zero_or_pos w with rfl | hw
  · exact Subsingleton.elim _ _
  have hlo := BitVec.le_toInt x
  have hhi := BitVec.toInt_lt (x := x)
  have hm : (m.toNat : Int) < 2 ^ w := by exact_mod_cast m.isLt
  have hm0 : (0 : Int) ≤ m.toNat := Int.natCast_nonneg _
  have hhalf : (0 : Int) < 2 ^ (w - 1) := by positivity
  have hpow : (0 : Int) < 2 ^ w := by positivity
  have hfit : (BitVec.ofInt w (x.toInt * m.toNat / 2 ^ w)).toInt = x.toInt * m.toNat / 2 ^ w := by
    apply BitVec.toInt_ofInt_eq_self hw
    · apply Int.le_ediv_of_mul_le hpow
      nlinarith
    · apply Int.ediv_lt_of_lt_mul hpow
      nlinarith
  rw [sshiftRight_eq_ofInt, hfit, Int.ediv_ediv_of_nonneg hpow.le, ← Int.pow_add]

variable {x m}

/-- The quotient of the multiplication, less the sign, is the truncated one. -/
theorem ofInt_mulHi_sub_sign {d : BitVec w} {s excess : Nat} (hd : 0 ≤ d.toInt)
    (h : MagicMultiplier (2 ^ (w - 1)) d.toNat (2 ^ (w + s)) excess m.toNat) :
    BitVec.ofInt w (x.toInt * m.toNat / 2 ^ (w + s)) - x.sshiftRight (w - 1) = x.sdiv d := by
  have hlo := BitVec.le_toInt x
  have hhi := BitVec.toInt_lt (x := x)
  have hquot := h.ediv_eq (x := x.toInt) (by push_cast; exact hlo) (by push_cast; exact hhi)
  push_cast at hquot
  rw [sshiftRight_pred, sdiv_eq_ofInt, toInt_eq_toNat_of_nonneg hd, ← hquot, BitVec.sub_eq_add_neg,
    ← BitVec.ofInt_neg, ← BitVec.ofInt_add]
  congr 2
  split <;> rfl

end Magic

/-- A 64-bit product of two ints does not overflow. -/
theorem toInt_signExtend_mul (x m : BitVec 32) :
    (x.signExtend 64 * BitVec.ofInt 64 m.toInt).toInt = x.toInt * m.toInt := by
  have hx := BitVec.toInt_signExtend_of_le (x := x) (show 32 ≤ 64 by decide)
  have hlo := BitVec.le_toInt_mul_toInt (x := x) (y := m)
  have hhi := BitVec.toInt_mul_toInt_le (x := x) (y := m)
  rw [← BitVec.ofInt_toInt (x := x.signExtend 64), hx, ← BitVec.ofInt_mul]
  apply BitVec.toInt_ofInt_eq_self (by decide) <;> omega

theorem intMulHi_eval (env : Env) (dividend : Node) (m : BitVec 32) {s : Nat} (hs : s < 32) :
    (intMulHi dividend m s).evalAt env .int =
      BitVec.ofInt 32 ((dividend.evalAt env .int).toInt * m.toNat / 2 ^ (32 + s)) := by
  have hproduct := toInt_signExtend_mul (dividend.evalAt env .int) m
  have hcut : ∀ n : Nat, n < 64 →
      (BitVec.sshiftRight ((dividend.evalAt env .int).signExtend 64 * BitVec.ofInt 64 m.toInt)
        (shiftCount 64 (BitVec.ofInt 32 n))).setWidth 32 =
      BitVec.ofInt 32 ((dividend.evalAt env .int).toInt * m.toInt / 2 ^ n) := by
    intro n hn
    rw [shiftCount_ofInt_natCast (by decide) hn, sshiftRight_eq_ofInt, hproduct,
      setWidth_ofInt (by decide)]
  have haddBack := mulHi_addBack (dividend.evalAt env .int) m
  unfold intMulHi
  split
  next hneg =>
    rw [if_pos hneg] at haddBack
    have hhigh : (newArith .int .add dividend (newUn .convL2I (newArith .long .rshift
        (newArith .long .mul (newUn .convI2L dividend) (longcon m.toInt))
          (intcon 32)))).evalAt env .int =
        BitVec.ofInt 32 ((dividend.evalAt env .int).toInt * m.toNat / 2 ^ 32) := by
      rw [← haddBack]
      exact congrArg (dividend.evalAt env .int + ·) (hcut 32 (by decide))
    by_cases hzero : s = 0
    · rw [if_neg (by simpa using hzero), hhigh, hzero]
    · rw [if_pos hzero, evalAt_rshift_intcon _ _ _ hs, hhigh, ofInt_mulHi_sshiftRight]
  next hnonneg =>
    rw [BitVec.slt_iff_toInt_lt, BitVec.toInt_zero] at hnonneg
    rw [← toInt_eq_toNat_of_nonneg (x := m) (by omega)]
    exact hcut (32 + s) (by omega)

/-- The words of `long_by_long_mulhi`. -/
theorem mulHi_halves (u v : BitVec 64) :
    let t := u.sshiftRight 32 * (v &&& 0xFFFFFFFF#64) +
      ((u &&& 0xFFFFFFFF#64) * (v &&& 0xFFFFFFFF#64)) >>> 32
    u.sshiftRight 32 * v.sshiftRight 32 + t.sshiftRight 32 +
      ((u &&& 0xFFFFFFFF#64) * v.sshiftRight 32 + (t &&& 0xFFFFFFFF#64)).sshiftRight 32 =
        mulHi u v := by
  intro t
  have hmask : ∀ x : BitVec 64, x &&& 0xFFFFFFFF#64 = BitVec.ofInt 64 (x.toInt % 2 ^ 32) :=
    and_mask_eq_ofInt (by decide) rfl
  have hu := BitVec.le_toInt u
  have hu' := BitVec.toInt_lt (x := u)
  have hv := BitVec.le_toInt v
  have hv' := BitVec.toInt_lt (x := v)
  obtain ⟨u0, hu0⟩ : ∃ u0, u0 = u.toInt % 2 ^ 32 := ⟨_, rfl⟩
  obtain ⟨u1, hu1⟩ : ∃ u1, u1 = u.toInt / 2 ^ 32 := ⟨_, rfl⟩
  obtain ⟨v0, hv0⟩ : ∃ v0, v0 = v.toInt % 2 ^ 32 := ⟨_, rfl⟩
  obtain ⟨v1, hv1⟩ : ∃ v1, v1 = v.toInt / 2 ^ 32 := ⟨_, rfl⟩
  have hlow : 0 ≤ u0 * v0 ∧ u0 * v0 ≤ (2 ^ 32 - 1) * (2 ^ 32 - 1) :=
    ⟨Int.mul_nonneg (by omega) (by omega),
      Int.mul_le_mul (by omega) (by omega) (by omega) (by omega)⟩
  have hcross : ∀ {a b : Int}, -2 ^ 31 ≤ a → a < 2 ^ 31 → 0 ≤ b → b < 2 ^ 32 →
      -2 ^ 31 * (2 ^ 32 - 1) ≤ a * b ∧ a * b ≤ (2 ^ 31 - 1) * (2 ^ 32 - 1) := by
    intro a b ha ha' hb hb'
    constructor <;> nlinarith
  have hmiddle := hcross (a := u1) (b := v0) (by omega) (by omega) (by omega) (by omega)
  have hmiddle' := hcross (a := v1) (b := u0) (by omega) (by omega) (by omega) (by omega)
  have ht : t = BitVec.ofInt 64 (u1 * v0 + u0 * v0 / 2 ^ 32) := by
    simp only [t, hmask, sshiftRight_eq_ofInt, ← BitVec.ofInt_mul, ← hu0, ← hu1, ← hv0]
    rw [ofInt_ushiftRight (by omega) (by omega), ← BitVec.ofInt_add]
  have htInt : t.toInt = u1 * v0 + u0 * v0 / 2 ^ 32 := by
    rw [ht]
    apply BitVec.toInt_ofInt_eq_self (by decide) <;> omega
  have hlast : (BitVec.ofInt 64 (u0 * v1 + t.toInt % 2 ^ 32)).toInt =
      u0 * v1 + t.toInt % 2 ^ 32 := by
    rw [Int.mul_comm u0]
    apply BitVec.toInt_ofInt_eq_self (by decide) <;> omega
  rw [hmask t, hmask u, sshiftRight_eq_ofInt u, sshiftRight_eq_ofInt v, sshiftRight_eq_ofInt t,
    ← hu0, ← hu1, ← hv1]
  rw [← BitVec.ofInt_mul, ← BitVec.ofInt_mul, ← BitVec.ofInt_add, ← BitVec.ofInt_add,
    sshiftRight_eq_ofInt, hlast, ← BitVec.ofInt_add, mulHi, htInt]
  congr 1
  have hproduct : u.toInt * v.toInt =
      u1 * v1 * 2 ^ 64 + (u1 * v0 + u0 * v1) * 2 ^ 32 + u0 * v0 := by
    rw [show u.toInt = u1 * 2 ^ 32 + u0 by omega, show v.toInt = v1 * 2 ^ 32 + v0 by omega]
    ring
  rw [hproduct]
  omega

/-- The schoolbook multiplication of the halves computes the upper half. -/
theorem longByLongMulhi_eval (phase : Phase) (env : Env) (dividend : Node) (m : BitVec 64) :
    (longByLongMulhi phase dividend m).evalAt env .long = mulHi (dividend.evalAt env .long) m := by
  unfold longByLongMulhi
  split
  · rw [evalAt_mulHiL, evalAt_longcon, BitVec.ofInt_toInt]
  · rw [← mulHi_halves]
    simp only [evalAt_newArith, evalAt_longcon, evalAt_intcon, ArithOp.apply, BitVec.ofInt_toInt]
    rfl

theorem longMulHi_eval (phase : Phase) (env : Env) (dividend : Node) (m : BitVec 64) {s : Nat}
    (hs : s < 64) :
    (longMulHi phase dividend m s).evalAt env .long =
      BitVec.ofInt 64 ((dividend.evalAt env .long).toInt * m.toNat / 2 ^ (64 + s)) := by
  have hhigh : (if m.slt 0#64 then newArith .long .add dividend (longByLongMulhi phase dividend m)
      else longByLongMulhi phase dividend m).evalAt env .long =
      BitVec.ofInt 64 ((dividend.evalAt env .long).toInt * m.toNat / 2 ^ 64) := by
    rw [← mulHi_addBack]
    split <;> simp only [evalAt_newArith, ArithOp.apply, longByLongMulhi_eval]
  unfold longMulHi
  by_cases hzero : s = 0
  · rw [if_neg (by simpa using hzero), hhigh, hzero]
  · rw [if_pos hzero, evalAt_rshift_intcon _ _ _ hs, hhigh, ofInt_mulHi_sshiftRight]

theorem subtractSign_eval (env : Env) (s : Size) (dividend addend0 : Node) (dPos : Bool) :
    (subtractSign s dividend addend0 dPos).evalAt env s =
      if dPos then addend0.evalAt env s - (dividend.evalAt env s).sshiftRight (s.bits - 1)
      else -(addend0.evalAt env s - (dividend.evalAt env s).sshiftRight (s.bits - 1)) := by
  have hbits : 0 < s.bits := by cases s <;> decide
  have hsign : ((s.bits : Int) - 1) = ((s.bits - 1 : Nat) : Int) := by omega
  unfold subtractSign
  rw [hsign]
  split <;> rw [evalAt_newArith, evalAt_rshift_intcon _ _ _ (by omega), ArithOp.apply]
  rw [BitVec.neg_sub, BitVec.add_comm, ← BitVec.sub_eq_add_neg]

/-! ## Every divisor -/

section Divisor

variable {w : Nat} {divisor : BitVec w}

theorem toInt_abs_divisor_pos (hzero : divisor ≠ 0#w)
    (hmin : divisor ≠ BitVec.intMin w) :
    0 < (if (0#w).sle divisor then divisor else -divisor).toInt := by
  have hne : divisor.toInt ≠ 0 := by
    rwa [ne_eq, ← BitVec.toInt_zero (w := w), BitVec.toInt_inj]
  simp only [BitVec.sle_iff_toInt_le, BitVec.toInt_zero]
  split
  · omega
  · rw [BitVec.toInt_neg_of_ne_intMin hmin]
    omega

/-- The quotient by a negative divisor is the negative of the one by its absolute value. -/
theorem sdiv_abs_divisor (hmin : divisor ≠ BitVec.intMin w) (x : BitVec w) :
    x.sdiv divisor =
      if (0#w).sle divisor then x.sdiv (if (0#w).sle divisor then divisor else -divisor)
      else -x.sdiv (if (0#w).sle divisor then divisor else -divisor) := by
  split
  · rfl
  · rw [sdiv_eq_ofInt, sdiv_eq_ofInt, BitVec.toInt_neg_of_ne_intMin hmin, Int.tdiv_neg,
      BitVec.ofInt_neg, BitVec.neg_neg]

end Divisor

theorem magicDivideConstants_of_not_isPowerOf2 {s : Size} {d : BitVec s.bits} (hpos : 0 < d.toInt)
    (hone : d ≠ 1#s.bits) (hpower : ¬ isPowerOf2 (d.signExtend 64) = true) :
    ∃ m shift excess, magicDivideConstants d = some (m, shift) ∧ shift < s.bits ∧
      MagicMultiplier (2 ^ (s.bits - 1)) d.toNat (2 ^ (s.bits + shift)) excess m.toNat := by
  have hle : s.bits ≤ 64 := by cases s <;> decide
  have hbits : 2 < s.bits := by cases s <;> decide
  have hnat := toInt_eq_toNat_of_nonneg hpos.le
  have hlt := BitVec.toInt_lt (x := d)
  rw [isPowerOf2_iff, toNat_signExtend_of_nonneg hle hpos.le] at hpower
  apply magicDivideConstants_eq hbits
  · have hne : d.toNat ≠ 1 := by
      intro h
      apply hone
      apply BitVec.eq_of_toNat_eq
      rw [h, BitVec.toNat_ofNat, Nat.mod_eq_of_lt (Nat.one_lt_two_pow (by omega))]
    omega
  · rw [hnat] at hlt
    exact_mod_cast hlt
  · intro hdvd
    obtain ⟨k, -, hk⟩ := (Nat.dvd_prime_pow Nat.prime_two).mp hdvd
    exact hpower ⟨k, hk⟩

/-- The result of a transformation: the quotient, or nothing to do. -/
def IsQuotient (env : Env) (s : Size) (dividend : Node) (divisor : BitVec s.bits) :
    Option Node → Prop
  | none => divisor = 1#s.bits
  | some q => q.evalAt env s = (dividend.evalAt env s).sdiv divisor

theorem transformDivide_eval {phase : Phase} {env : Env} {s : Size}
    {nonneg : TypeInteger s.bits → Bool} (hnonneg : ∀ t, nonneg t = true → 0 ≤ t.lo.toInt)
    {mulHi : BitVec s.bits → Option Node} {dividend : Node}
    (hmulHi : ∀ d m shift, magicDivideConstants d = some (m, shift) → shift < s.bits →
      ∃ n, mulHi d = some n ∧ n.evalAt env s = BitVec.ofInt s.bits
        ((dividend.evalAt env s).toInt * m.toNat / 2 ^ (s.bits + shift)))
    (hrespects : phase.Respects env dividend) {divisor : BitVec s.bits}
    (hzero : divisor ≠ 0#s.bits) (hmin : divisor ≠ BitVec.intMin s.bits) :
    IsQuotient env s dividend divisor
      (transformDivide phase s nonneg mulHi dividend divisor) := by
  have hpos := toInt_abs_divisor_pos hzero hmin
  have habs := sdiv_abs_divisor hmin (dividend.evalAt env s)
  unfold transformDivide
  dsimp only
  generalize hd : (if (0#s.bits).sle divisor then divisor else -divisor) = d at *
  split
  next hone =>
    split
    next hle =>
      rw [if_pos hle] at hd
      exact hd.trans hone
    next hneg =>
      rw [if_neg hneg, hone, BitVec.sdiv_one] at habs
      rw [IsQuotient, habs, evalAt_newArith, evalAt_newCon]
      simp [ArithOp.apply]
  next hone =>
    split
    next hpower =>
      rw [IsQuotient, divideByPowerOf2_eval hnonneg hrespects hpos hone hpower, habs]
    next hpower =>
      obtain ⟨m, shift, excess, hmagic, hshift, hmultiplier⟩ :=
        magicDivideConstants_of_not_isPowerOf2 hpos hone hpower
      obtain ⟨n, hn, heval⟩ := hmulHi d m shift hmagic hshift
      rw [hn, Option.map_some, IsQuotient, subtractSign_eval, heval,
        ofInt_mulHi_sub_sign hpos.le hmultiplier, habs]

theorem transformIntDivide_eval {phase : Phase} {env : Env} {dividend : Node}
    (hrespects : phase.Respects env dividend) {divisor : BitVec 32} (hzero : divisor ≠ 0#32)
    (hmin : divisor ≠ BitVec.intMin 32) :
    IsQuotient env .int dividend divisor (transformIntDivide phase dividend divisor) := by
  apply transformDivide_eval _ _ hrespects hzero hmin
  · intro t ht
    rwa [BitVec.sle_iff_toInt_le] at ht
  · intro d m shift hmagic hshift
    refine ⟨intMulHi dividend m shift, ?_, intMulHi_eval env dividend m hshift⟩
    rw [magicIntDivideConstants, hmagic, Option.map_some]

theorem transformLongDivide_eval {phase : Phase} {env : Env} {dividend : Node}
    (hrespects : phase.Respects env dividend) {divisor : BitVec 64} (hzero : divisor ≠ 0#64)
    (hmin : divisor ≠ BitVec.intMin 64) :
    IsQuotient env .long dividend divisor (transformLongDivide phase dividend divisor) := by
  apply transformDivide_eval _ _ hrespects hzero hmin
  · intro t ht
    rw [BitVec.slt_iff_toInt_lt] at ht
    exact ht.le
  · intro d m shift hmagic hshift
    refine ⟨longMulHi phase dividend m shift, ?_, longMulHi_eval phase env dividend m hshift⟩
    rw [magicLongDivideConstants, hmagic, Option.map_some]

theorem divIdeal_eval {phase : Phase} {env : Env} {s : Size}
    {transformDivide : Phase → Node → BitVec s.bits → Option Node} {in1 in2 : Node}
    (htransform : ∀ divisor, divisor ≠ 0#s.bits → divisor ≠ BitVec.intMin s.bits →
      IsQuotient env s in1 divisor (transformDivide phase in1 divisor))
    (hrespects : phase.Respects env in2) (idx : Nat) {q : Node}
    (h : divIdeal phase s transformDivide in1 in2 = some q) :
    q.evalAt env s = (Node.bin idx (.arith s .div) in1 in2).evalAt env s := by
  unfold divIdeal at h
  split at h
  next => cases h
  next t ht =>
    rw [Ty.isa_eq_some] at ht
    split at h
    next => cases h
    next =>
      split at h
      next => cases h
      next hcon =>
        split at h
        next => cases h
        next hzero =>
          split at h
          next => cases h
          next hmin =>
            have hquot := htransform t.lo hzero hmin
            rw [h] at hquot
            rw [evalAt_arith, hrespects.eq_of_isCon ht (by simpa using hcon)]
            exact hquot

/-- Strength reduction of a division by a constant is exact, for every dividend whose
type is respected and every divisor but zero and the smallest number. -/
theorem strengthReduction_div_exact {phase : Phase} {env : Env} {dividend : Node}
    (hrespects : phase.Respects env dividend) :
    (∀ divisor : BitVec 32, divisor ≠ 0#32 → divisor ≠ BitVec.intMin 32 →
      (transformIntDivide phase dividend divisor = none → divisor = 1#32) ∧
      ∀ q, transformIntDivide phase dividend divisor = some q →
        q.evalAt env .int = (dividend.evalAt env .int).sdiv divisor) ∧
    (∀ divisor : BitVec 64, divisor ≠ 0#64 → divisor ≠ BitVec.intMin 64 →
      (transformLongDivide phase dividend divisor = none → divisor = 1#64) ∧
      ∀ q, transformLongDivide phase dividend divisor = some q →
        q.evalAt env .long = (dividend.evalAt env .long).sdiv divisor) ∧
    (∀ idx divisor q, phase.Respects env divisor → DivINode.ideal phase dividend divisor = some q →
      q.evalAt env .int = (Node.bin idx (.arith .int .div) dividend divisor).evalAt env .int) ∧
    (∀ idx divisor q, phase.Respects env divisor → DivLNode.ideal phase dividend divisor = some q →
      q.evalAt env .long =
        (Node.bin idx (.arith .long .div) dividend divisor).evalAt env .long) := by
  refine ⟨?_, ?_, ?_, ?_⟩
  · intro divisor hzero hmin
    have h := transformIntDivide_eval hrespects hzero hmin
    constructor
    · intro hnone
      rwa [hnone] at h
    · intro q hq
      rwa [hq] at h
  · intro divisor hzero hmin
    have h := transformLongDivide_eval hrespects hzero hmin
    constructor
    · intro hnone
      rwa [hnone] at h
    · intro q hq
      rwa [hq] at h
  · intro idx divisor q hdivisor hq
    exact divIdeal_eval (fun _ => transformIntDivide_eval hrespects) hdivisor idx hq
  · intro idx divisor q hdivisor hq
    exact divIdeal_eval (fun _ => transformLongDivide_eval hrespects) hdivisor idx hq

/-- A phase that knows nothing but the constants, on a machine without `MulHiL`. -/
def untypedPhase : Phase where
  type
    | .con s c => .integer s (.con c)
    | _ => .bottom
  hasMatchRuleMulHiL := false
  conditionalMoveLimit := 3

theorem strengthReduction_div_exact_leaf :
    untypedPhase.Respects (constantEnv (-100) (-100)) (.leaf 0) ∧
    (∀ q, transformIntDivide untypedPhase (.leaf 0) (-7) = some q →
      q.evalAt (constantEnv (-100) (-100)) .int = 14) ∧
    (∀ q, transformLongDivide untypedPhase (.leaf 0) 8 = some q →
      q.evalAt (constantEnv (-100) (-100)) .long = -12) := by
  have hrespects : untypedPhase.Respects (constantEnv (-100) (-100)) (.leaf 0) := trivial
  have h := strengthReduction_div_exact hrespects
  refine ⟨hrespects, ?_, ?_⟩
  · intro q hq
    exact (h.1 (-7) (by decide) (by decide)).2 q hq
  · intro q hq
    exact (h.2.1 8 (by decide) (by decide)).2 q hq

end HotSpot.Opto
