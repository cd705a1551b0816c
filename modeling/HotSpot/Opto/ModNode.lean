import HotSpot.Lib.FoldedRemainder
import HotSpot.Opto.DivNode

/-! # Strength reduction of remainders

`ModINode::Ideal` and `ModLNode::Ideal` of `divnode.cpp`. The graph a remainder
by a constant is replaced by computes Java's remainder, whose sign is that of the
dividend.
-/

namespace HotSpot.Opto

open Node

/-! ## The graphs -/

/-- Rounds that reduce an int to nearly `2 ^ k - 1`; past the end one is enough. -/
def intUnrollFactor : List Nat := [999, 999, 29, 14, 9, 7, 5, 4, 4, 3, 3, 2, 2, 2, 2, 2, 1]

/-- Rounds that reduce a long to nearly `2 ^ k - 1`; past the end one is enough. -/
def longUnrollFactor : List Nat :=
  [999, 999, 61, 30, 20, 15, 12, 10, 8, 7, 6, 6, 5, 5, 4, 4, 4, 3, 3, 3, 3, 3, 2, 2, 2, 2, 2, 2, 2,
    2, 2, 2, 1]

/-- Generate code to reduce `x` rapidly to nearly `2 ^ k - 1`. -/
def foldDigits (s : Size) (k : Nat) (divisor : Node) : Nat → Node → Node
  | 0, x => x
  | tripCount + 1, x =>
    let xl := newArith s .and x divisor
    let xh := newArith s .rshift x (intcon k) -- Must be signed
    foldDigits s k divisor tripCount (newArith s .add xh xl)

/-- The node that is `ifTrue` if `x ≥ y`. -/
def selectGe (s : Size) (x y ifFalse ifTrue : Node) : Node :=
  .cmove 0 (.bool 0 .ge (.new (.cmp s) x y)) ifFalse ifTrue

/-- Modulo `2 ^ k - 1`, if the unroll factor is not too large and conditional moves are ok. -/
def foldedMod (phase : Phase) (s : Size) (unrollFactor : List Nat) (in1 in2 : Node)
    (con : BitVec s.bits) : Option Node :=
  if (0#s.bits).sle con ∧ con.slt (BitVec.intMax s.bits) ∧
      isPowerOf2 ((con + 1#s.bits).signExtend 64) then
    let k := (log2Intptr ((con + 1#s.bits).signExtend 64)).toNat
    let tripCount := unrollFactor.getD k 1
    if tripCount ≤ 5 ∧ phase.conditionalMoveLimit ≠ 0 then
      let x := foldDigits s k in2 tripCount in1
      -- Generate sign-fixup code.  Was original value positive?
      let cmov1 := selectGe s in1 (newCon s 0) (newCon s 1) in2
      let sub := newArith s .sub x in2
      some (selectGe s x cmov1 x sub)
    else none
  else none

/-- Divide, re-multiply and subtract. -/
def multipliedMod (phase : Phase) (s : Size)
    (transformDivide : Phase → Node → BitVec s.bits → Option Node) (in1 : Node)
    (con : BitVec s.bits) : Option Node :=
  -- Cannot handle mod 0, and min_jint isn't handled by the transform
  if con = 0#s.bits ∨ con = BitVec.intMin s.bits then none
  else
    let posCon := if (0#s.bits).sle con then con else -con
    -- integer Mod 1 is always 0
    if posCon = 1#s.bits then some (.con s 0#s.bits)
    else
      let log2Con := if isPowerOf2 (posCon.signExtend 64) then log2Intptr (posCon.signExtend 64)
        else -1
      -- See if this can be masked, if the dividend is non-negative
      if isPowerOf2 (posCon.signExtend 64) ∧
          ((phase.type in1).isa s).any fun t => (0#s.bits).sle t.lo then
        some (newArith s .and in1 (.con s (posCon - 1#s.bits)))
      else
        (transformDivide phase in1 posCon).map fun divide =>
          let mult := if 0 ≤ log2Con then newArith s .lshift divide (intcon log2Con)
            else newArith s .mul divide (.con s posCon)
          newArith s .sub in1 mult

/-- `ModINode::Ideal` and `ModLNode::Ideal` of a node without a dead control input; `control`
says whether it has one. -/
def modIdeal (phase : Phase) (s : Size) (unrollFactor : List Nat)
    (transformDivide : Phase → Node → BitVec s.bits → Option Node) (control : Bool) (idx : Nat)
    (in1 in2 : Node) : Option Node :=
  match (phase.type in2).isa s with
  | none => none
  | some t =>
    -- Yank a useless control input, which is there for the mod-zero case
    if control ∧ (t.hi.slt 0#s.bits ∨ (0#s.bits).slt t.lo) then
      some (.bin idx (.arith s .mod) in1 in2)
    else if t.isCon = false then none
    else
      match foldedMod phase s unrollFactor in1 in2 t.lo with
      | some n => some n
      | none => multipliedMod phase s transformDivide in1 t.lo

def ModINode.ideal (phase : Phase) (control : Bool) (idx : Nat) (in1 in2 : Node) : Option Node :=
  modIdeal phase .int intUnrollFactor transformIntDivide control idx in1 in2

def ModLNode.ideal (phase : Phase) (control : Bool) (idx : Nat) (in1 in2 : Node) : Option Node :=
  modIdeal phase .long longUnrollFactor transformLongDivide control idx in1 in2

/-! ## Folding -/

/-- The rounds of the table bring every number of the width into the window in which one
subtraction is enough. -/
def WindowReached (w k tripCount : Nat) : Prop :=
  foldLower (2 ^ k) tripCount (2 ^ (w - 1)) < 2 ^ k - 1 ∧
    foldUpper (2 ^ k) tripCount (2 ^ (w - 1) - 1) < 2 * (2 ^ k - 1)

instance (w k tripCount : Nat) : Decidable (WindowReached w k tripCount) :=
  inferInstanceAs (Decidable (_ ∧ _))

theorem intUnrollFactor_window : ∀ k < 31, intUnrollFactor.getD k 1 ≤ 5 →
    2 ≤ k ∧ WindowReached 32 k (intUnrollFactor.getD k 1) := by
  decide +kernel

theorem longUnrollFactor_window : ∀ k < 63, longUnrollFactor.getD k 1 ≤ 5 →
    2 ≤ k ∧ WindowReached 64 k (longUnrollFactor.getD k 1) := by
  decide +kernel

/-- A round on words is one on the numbers they stand for. -/
theorem toInt_fold {w k : Nat} (hk : 0 < k) (hkw : k + 1 < w) {mask : BitVec w}
    (hmask : mask.toNat = 2 ^ k - 1) (x : BitVec w) :
    (x.sshiftRight k + (x &&& mask)).toInt = fold ((2 ^ k : Nat) : Int) x.toInt := by
  have hlo := BitVec.le_toInt x
  have hhi := BitVec.toInt_lt (x := x)
  have hpos : (0 : Int) < 2 ^ k := by positivity
  have hquarter : (2 : Int) ^ (w - 1) = 2 * 2 ^ (w - 2) := by
    rw [← Int.pow_succ']
    congr 1
    omega
  have hsmall : (2 : Int) ^ k ≤ 2 ^ (w - 2) := by
    exact_mod_cast Nat.pow_le_pow_right (by decide) (by omega : k ≤ w - 2)
  have htwo : (2 : Int) ≤ 2 ^ k := by
    exact_mod_cast Nat.pow_le_pow_right (by decide : 0 < 2) hk
  have hrem := Int.emod_nonneg x.toInt hpos.ne'
  have hrem' := Int.emod_lt_of_pos x.toInt hpos
  have hquot : -2 ^ (w - 2) ≤ x.toInt / 2 ^ k := by
    rw [Int.le_ediv_iff_mul_le hpos]
    nlinarith
  have hquot' : x.toInt / 2 ^ k < 2 ^ (w - 2) := by
    apply Int.ediv_lt_of_lt_mul hpos
    nlinarith
  rw [sshiftRight_eq_ofInt, and_mask_eq_ofInt (by omega) hmask, ← BitVec.ofInt_add,
    BitVec.toInt_ofInt_eq_self (by omega) (by omega) (by omega), fold]
  push_cast
  rfl

theorem foldDigits_eval {env : Env} {s : Size} {k : Nat} (hk : 0 < k) (hkw : k + 1 < s.bits)
    {divisor : Node} (hmask : (divisor.evalAt env s).toNat = 2 ^ k - 1) (tripCount : Nat)
    (x : Node) :
    ((foldDigits s k divisor tripCount x).evalAt env s).toInt =
      (fold ((2 ^ k : Nat) : Int))^[tripCount] (x.evalAt env s).toInt := by
  induction tripCount generalizing x with
  | zero => rfl
  | succ tripCount ih =>
    rw [foldDigits, ih, Function.iterate_succ_apply, ← toInt_fold hk hkw hmask, evalAt_newArith,
      evalAt_rshift_intcon _ _ _ (by omega), evalAt_newArith]
    rfl

theorem holds_ge_compare {w : Nat} (x y : BitVec w) :
    BoolTest.ge.holds (compare BitVec.slt x y) = decide (y.toInt ≤ x.toInt) := by
  unfold compare
  split
  next hlt =>
    rw [BitVec.slt_iff_toInt_lt] at hlt
    rw [decide_eq_false (by omega)]
    rfl
  next hge =>
    rw [BitVec.slt_iff_toInt_lt] at hge
    rw [decide_eq_true (by omega)]
    split <;> rfl

theorem selectGe_eval (env : Env) (s : Size) (x y ifFalse ifTrue : Node) :
    (selectGe s x y ifFalse ifTrue).evalAt env s =
      if (y.evalAt env s).toInt ≤ (x.evalAt env s).toInt then ifTrue.evalAt env s
      else ifFalse.evalAt env s := by
  have hbool : ((Node.bool 0 .ge (.new (.cmp s) x y)).eval env).int =
      if decide ((y.evalAt env s).toInt ≤ (x.evalAt env s).toInt) then 1 else 0 := by
    rw [← holds_ge_compare]
    rfl
  rw [evalAt, selectGe, Node.eval, hbool]
  by_cases hge : (y.evalAt env s).toInt ≤ (x.evalAt env s).toInt
  · rw [if_pos hge, decide_eq_true hge, if_pos rfl, if_neg (by decide)]
    rfl
  · rw [if_neg hge, decide_eq_false hge, if_pos (by decide)]
    rfl

/-- What the tests of a modulus that is a power of two less one establish. -/
theorem exists_two_pow_sub_one {s : Size} {con : BitVec s.bits} (hnonneg : 0 ≤ con.toInt)
    (hmax : con.toInt < (BitVec.intMax s.bits).toInt)
    (hpower : isPowerOf2 ((con + 1#s.bits).signExtend 64) = true) :
    ∃ k : Nat, k + 1 < s.bits ∧ con.toNat = 2 ^ k - 1 ∧ con.toInt = ((2 ^ k : Nat) : Int) - 1 ∧
      (log2Intptr ((con + 1#s.bits).signExtend 64)).toNat = k := by
  have hle : s.bits ≤ 64 := by cases s <;> decide
  have hmaxInt : (BitVec.intMax s.bits).toInt = 2 ^ (s.bits - 1) - 1 := by cases s <;> decide
  have hone : BitVec.ofInt s.bits 1 = 1#s.bits := by cases s <;> decide
  have hsucc : (con + 1#s.bits).toInt = con.toInt + 1 := by
    rw [← hone]
    nth_rewrite 1 [← BitVec.ofInt_toInt (x := con)]
    rw [← BitVec.ofInt_add]
    apply BitVec.toInt_ofInt_eq_self (by cases s <;> decide) <;> omega
  have hnat := toInt_eq_toNat_of_nonneg hnonneg
  have hnat' := toInt_eq_toNat_of_nonneg (show 0 ≤ (con + 1#s.bits).toInt by omega)
  have hext := toNat_signExtend_of_nonneg hle (show 0 ≤ (con + 1#s.bits).toInt by omega)
  rw [isPowerOf2_iff, hext] at hpower
  obtain ⟨k, hk⟩ := hpower
  have hpow := Nat.two_pow_pos k
  refine ⟨k, ?_, by omega, by omega, ?_⟩
  · have hlt : 2 ^ k < 2 ^ (s.bits - 1) := by
      have : ((2 ^ k : Nat) : Int) < 2 ^ (s.bits - 1) := by omega
      exact_mod_cast this
    have := (Nat.pow_lt_pow_iff_right (by decide : 1 < 2)).mp hlt
    omega
  · rw [log2Intptr_of_toNat_eq (hext.trans hk), Int.toNat_natCast]

theorem foldedMod_eval {phase : Phase} {env : Env} {s : Size} {unrollFactor : List Nat}
    (hwindow : ∀ k < s.bits - 1, unrollFactor.getD k 1 ≤ 5 →
      2 ≤ k ∧ WindowReached s.bits k (unrollFactor.getD k 1))
    {in1 in2 : Node} {con : BitVec s.bits} (hcon : in2.evalAt env s = con) {n : Node}
    (h : foldedMod phase s unrollFactor in1 in2 con = some n) :
    n.evalAt env s = (in1.evalAt env s).srem con := by
  have hbits : 2 < s.bits := by cases s <;> decide
  unfold foldedMod at h
  split at h
  next htests =>
    obtain ⟨hnonneg, hmax, hpower⟩ := htests
    rw [BitVec.sle_iff_toInt_le, BitVec.toInt_zero] at hnonneg
    rw [BitVec.slt_iff_toInt_lt] at hmax
    obtain ⟨k, hk, hnat, hint, hlog⟩ := exists_two_pow_sub_one hnonneg hmax hpower
    rw [hlog] at h
    dsimp only at h
    split at h
    next htrip =>
      obtain ⟨hk2, hlower, hupper⟩ := hwindow k (by omega) htrip.1
      obtain rfl := Option.some.inj h
      have hx := foldDigits_eval (x := in1) (show 0 < k by omega) hk (by rw [hcon]; exact hnat)
        (unrollFactor.getD k 1)
      have hlo := BitVec.le_toInt (in1.evalAt env s)
      have hhi := BitVec.toInt_lt (x := in1.evalAt env s)
      have hbase : 2 < 2 ^ k := Nat.lt_of_lt_of_le (by decide : 2 < 2 ^ 2)
        (Nat.pow_le_pow_right (by decide) hk2)
      have htmod := tmod_eq_of_fold hbase (by push_cast; exact hlo) (by push_cast; exact hhi)
        hlower hupper
      have hone : (BitVec.ofInt s.bits 1).toInt = 1 := by cases s <;> decide
      have hzero : (BitVec.ofInt s.bits 0).toInt = 0 := by cases s <;> decide
      rw [srem_eq_ofInt, hint, htmod, selectGe_eval, selectGe_eval, evalAt_newArith, evalAt_newCon,
        evalAt_newCon, hcon, ← hx, hzero]
      generalize (foldDigits s k in2 (unrollFactor.getD k 1) in1).evalAt env s = x
      have hthreshold : (if 0 ≤ (in1.evalAt env s).toInt then con
          else BitVec.ofInt s.bits 1).toInt =
          if 0 ≤ (in1.evalAt env s).toInt then ((2 ^ k : Nat) : Int) - 1 else 1 := by
        split
        · exact hint
        · exact hone
      rw [hthreshold]
      generalize (if 0 ≤ (in1.evalAt env s).toInt then ((2 ^ k : Nat) : Int) - 1 else 1) = threshold
      split
      · rw [← hint, Int.sub_eq_add_neg, BitVec.ofInt_add, BitVec.ofInt_neg, BitVec.ofInt_toInt,
          BitVec.ofInt_toInt, ← BitVec.sub_eq_add_neg]
        rfl
      · rw [BitVec.ofInt_toInt]
    next => cases h
  next => cases h

/-! ## Multiplying back -/

section Modulus

variable {w : Nat} {con : BitVec w}

/-- The remainder does not depend on the sign of the modulus. -/
theorem srem_abs_modulus (hmin : con ≠ BitVec.intMin w) (x : BitVec w) :
    x.srem con = x.srem (if (0#w).sle con then con else -con) := by
  split
  · rfl
  · rw [srem_eq_ofInt, srem_eq_ofInt, BitVec.toInt_neg_of_ne_intMin hmin, Int.tmod_neg]

theorem sub_sdiv_mul (x d : BitVec w) : x - x.sdiv d * d = x.srem d := by
  have hdef := Int.tmod_def x.toInt d.toInt
  rw [srem_eq_ofInt, hdef, Int.sub_eq_add_neg, BitVec.ofInt_add, BitVec.ofInt_neg, BitVec.ofInt_mul,
    ← sdiv_eq_ofInt, BitVec.ofInt_toInt, BitVec.ofInt_toInt, ← BitVec.sub_eq_add_neg,
    BitVec.mul_comm]

end Modulus

theorem multipliedMod_eval {phase : Phase} {env : Env} {s : Size}
    {transformDivide : Phase → Node → BitVec s.bits → Option Node} {in1 : Node}
    (htransform : ∀ divisor, divisor ≠ 0#s.bits → divisor ≠ BitVec.intMin s.bits →
      IsQuotient env s in1 divisor (transformDivide phase in1 divisor))
    (hrespects : phase.Respects env in1) {con : BitVec s.bits} (hzero : con ≠ 0#s.bits)
    (hmin : con ≠ BitVec.intMin s.bits) :
    ∃ n, multipliedMod phase s transformDivide in1 con = some n ∧
      n.evalAt env s = (in1.evalAt env s).srem con := by
  have hpos := toInt_abs_divisor_pos hzero hmin
  rw [srem_abs_modulus hmin]
  unfold multipliedMod
  rw [if_neg (by simp [hzero, hmin])]
  dsimp only
  generalize (if (0#s.bits).sle con then con else -con) = d at *
  split
  next hone =>
    refine ⟨_, rfl, ?_⟩
    rw [evalAt_con, hone, BitVec.srem_one]
  next hone =>
    split
    next hmasked =>
      refine ⟨_, rfl, ?_⟩
      obtain ⟨hpower, hany⟩ := hmasked
      obtain ⟨t, ht, hlo⟩ := (Option.any_eq_true _ _).mp hany
      rw [Ty.isa_eq_some] at ht
      obtain ⟨l, -, hlt, hd, hdInt, -⟩ := exists_two_pow hpos hone hpower
      rw [BitVec.sle_iff_toInt_le, BitVec.toInt_zero] at hlo
      have hnonneg := TypeInteger.contains_iff.mp (hrespects.contains ht)
      rw [evalAt_newArith, evalAt_con, srem_eq_ofInt, hdInt,
        Int.tmod_eq_emod_of_nonneg (by omega)]
      apply and_mask_eq_ofInt (by omega)
      rw [hd, toNat_twoPow_sub_one hlt]
    next =>
      have hdzero : d ≠ 0#s.bits := by
        rintro rfl
        simp at hpos
      have hdmin : d ≠ BitVec.intMin s.bits := by
        rintro rfl
        rw [BitVec.toInt_intMin_of_pos (by cases s <;> decide)] at hpos
        have : (0 : Int) < 2 ^ (s.bits - 1) := by positivity
        omega
      have hquot := htransform d hdzero hdmin
      rcases hdivide : transformDivide phase in1 d with _ | divide
      · rw [hdivide] at hquot
        exact absurd hquot hone
      · rw [hdivide] at hquot
        refine ⟨_, rfl, ?_⟩
        rw [evalAt_newArith, ← sub_sdiv_mul, ← show divide.evalAt env s = _ from hquot]
        refine congrArg (in1.evalAt env s - ·) ?_
        by_cases hpower : isPowerOf2 (d.signExtend 64) = true
        · obtain ⟨l, -, hlt, hd, hdInt, -⟩ := exists_two_pow hpos hone hpower
          have hext : (d.signExtend 64).toNat = 2 ^ l := by
            rw [toNat_signExtend_of_nonneg (by cases s <;> decide) hpos.le, hd,
              BitVec.toNat_twoPow_of_lt hlt]
          rw [if_pos hpower, log2Intptr_of_toNat_eq hext, if_pos (Int.natCast_nonneg l),
            evalAt_lshift_intcon _ _ _ hlt, hd, BitVec.shiftLeft_eq_mul_twoPow]
        · rw [if_neg hpower, if_neg (by decide), evalAt_newArith, evalAt_con]
          rfl

/-! ## Every modulus -/

theorem modIdeal_eval {phase : Phase} {env : Env} {s : Size} {unrollFactor : List Nat}
    (hwindow : ∀ k < s.bits - 1, unrollFactor.getD k 1 ≤ 5 →
      2 ≤ k ∧ WindowReached s.bits k (unrollFactor.getD k 1))
    {transformDivide : Phase → Node → BitVec s.bits → Option Node} {in1 in2 : Node}
    (htransform : ∀ divisor, divisor ≠ 0#s.bits → divisor ≠ BitVec.intMin s.bits →
      IsQuotient env s in1 divisor (transformDivide phase in1 divisor))
    (hin1 : phase.Respects env in1) (hin2 : phase.Respects env in2) {t : TypeInteger s.bits}
    (ht : phase.type in2 = .integer s t) (hcon : t.isCon = true) (hzero : t.lo ≠ 0#s.bits)
    (hmin : t.lo ≠ BitVec.intMin s.bits) (control : Bool) (idx : Nat) :
    ∃ n, modIdeal phase s unrollFactor transformDivide control idx in1 in2 = some n ∧
      n.evalAt env s = (in1.evalAt env s).srem t.lo := by
  have hvalue := hin2.eq_of_isCon ht hcon
  unfold modIdeal
  rw [Ty.isa_eq_some.mpr ht]
  dsimp only
  split
  next =>
    refine ⟨_, rfl, ?_⟩
    rw [evalAt_arith, hvalue]
    rfl
  next =>
    rw [if_neg (by simp [hcon])]
    rcases hfolded : foldedMod phase s unrollFactor in1 in2 t.lo with _ | n
    · exact multipliedMod_eval htransform hin1 hzero hmin
    · exact ⟨n, rfl, foldedMod_eval hwindow hvalue hfolded⟩

/-- Strength reduction of a remainder by a constant is exact, for every dividend whose
type is respected and every modulus but zero and the smallest number. -/
theorem strengthReduction_mod_exact {phase : Phase} {env : Env} {in1 in2 : Node}
    (hin1 : phase.Respects env in1) (hin2 : phase.Respects env in2) (control : Bool) (idx : Nat) :
    (∀ t : TypeInt, phase.type in2 = .integer .int t → t.isCon = true → t.lo ≠ 0#32 →
      t.lo ≠ BitVec.intMin 32 → ∃ n, ModINode.ideal phase control idx in1 in2 = some n ∧
        n.evalAt env .int = (in1.evalAt env .int).srem t.lo) ∧
    (∀ t : TypeLong, phase.type in2 = .integer .long t → t.isCon = true → t.lo ≠ 0#64 →
      t.lo ≠ BitVec.intMin 64 → ∃ n, ModLNode.ideal phase control idx in1 in2 = some n ∧
        n.evalAt env .long = (in1.evalAt env .long).srem t.lo) := by
  constructor
  · intro t ht hcon hzero hmin
    exact modIdeal_eval (s := .int) intUnrollFactor_window
      (fun _ => transformIntDivide_eval hin1) hin1 hin2 ht
      hcon hzero hmin control idx
  · intro t ht hcon hzero hmin
    exact modIdeal_eval (s := .long) longUnrollFactor_window
      (fun _ => transformLongDivide_eval hin1) hin1 hin2
      ht hcon hzero hmin control idx

theorem strengthReduction_mod_exact_leaf :
    (∃ n, ModINode.ideal untypedPhase false 1 (.leaf 0) (.con .int 127) = some n ∧
      n.evalAt (constantEnv (-1000) (-1000)) .int = -111) ∧
    (∃ n, ModLNode.ideal untypedPhase true 1 (.leaf 0) (.con .long 10) = some n ∧
      n.evalAt (constantEnv (-1003) (-1003)) .long = -3) := by
  have hleaf : ∀ env, untypedPhase.Respects env (.leaf 0) := fun _ => trivial
  have hint : ∀ env, untypedPhase.Respects env (.con .int 127) := fun _ =>
    show (TypeInteger.con (127 : BitVec 32)).Contains 127 by decide
  have hlong : ∀ env, untypedPhase.Respects env (.con .long 10) := fun _ =>
    show (TypeInteger.con (10 : BitVec 64)).Contains 10 by decide
  constructor
  · exact (strengthReduction_mod_exact (hleaf _) (hint _) false 1).1 (.con 127) rfl rfl (by decide)
      (by decide)
  · exact (strengthReduction_mod_exact (hleaf _) (hlong _) true 1).2 (.con 10) rfl rfl (by decide)
      (by decide)

end HotSpot.Opto
