import HotSpot.Opto.CountedLoop
import HotSpot.Opto.TypeOrder

/-! # Tests of comparisons

`BoolNode::Ideal` moves the constant of a comparison to the right and looks through the
arithmetic that is compared with zero. A test is a mask of three bits: the lower two are
compared with the condition codes, the third flips the outcome.
-/

namespace HotSpot.Opto

open TypeInteger

namespace BoolTest

end BoolTest

/-- The comparisons of integers. -/
inductive CmpOp where
  | cmpI | cmpU | cmpL
  deriving DecidableEq, Repr

namespace CmpOp

def binOp : CmpOp → BinOp
  | cmpI => .cmp .int
  | cmpU => .cmpU
  | cmpL => .cmp .long

end CmpOp

/-- `SYMINT`, all ints but the smallest. -/
def symint : TypeInt := make (-BitVec.intMax 32) (BitVec.intMax 32) widenMin

namespace BoolNode

def isCon : Node → Bool
  | .con _ _ => true
  | _ => false

/-- The new `BoolNode` of a new comparison. -/
def newBool (test : BoolTest) (op : CmpOp) (cmp1 cmp2 : Node) : Node :=
  .bool 0 test (.new op.binOp cmp1 cmp2)

/-- A comparison of a pointer with null. -/
def newBoolP (test : BoolTest) (x : Node) : Node :=
  .bool 0 test (.new (.cmp .long) x (.con .long 0))

/-- `BoolNode::Ideal` of a test of the comparison `cop` of `cmp1` and `cmp2`. `loopExit` is
`is_counted_loop_exit_test`. -/
def ideal (phase : Phase) (loopExit : Bool) (isOpaque1 : Node → Bool) (test : BoolTest)
    (cop : CmpOp) (cmp1 cmp2 : Node) : Option Node :=
  if isCon cmp1 && !isCon cmp2 && !isOpaque1 cmp2 && !loopExit then
    -- Move the constant to the right.
    some (newBool test.commute cop cmp2 cmp1)
  else
    match (phase.type cmp2).isa .int with
    | none => none
    | some cmp2Type =>
      match cmp1 with
      | .bin _ (.arith .int .xor) x flip =>
        if cmp2Type = zero 32 && phase.type flip = .integer .int (one 32) &&
            (test = .eq || test = .ne) then
          some (newBool test.negate .cmpI x cmp2)
        else none
      | .un _ (.conv2B _) x =>
        if cmp2Type = zero 32 && (test = .eq || test = .ne) then
          if ((phase.type x).isa .int).isSome then some (newBool test .cmpI x cmp2)
          else some (newBoolP test x)
        else none
      | .bin _ (.arith .int .sub) a b =>
        if (test = .eq || test = .ne) && cop = .cmpI && cmp2Type = zero 32 then
          some (newBool test .cmpI a b)
        else if cop = .cmpI && cmp2Type = zero 32 && phase.type a = .integer .int (zero 32) &&
            (phase.type b).higherEqual .int symint then
          -- The negation of the smallest int does nothing.
          some (newBool test.commute .cmpI b cmp2)
        else none
      | _ => none

/-- The types of the phase are of the kind that the nodes compute. -/
structure Typed (phase : Phase) (cop : CmpOp) (cmp1 cmp2 : Node) : Prop where
  long : cop = .cmpL → (phase.type cmp2).isa .int = none
  conv2B : ∀ idx s x, cmp1 = .un idx (.conv2B s) x →
    (((phase.type x).isa .int).isSome = true ↔ s = .int)

/-- Where `Ideal` takes an exclusive or with 1 for the flipping of a boolean, it is one. -/
def FlipsBoolean (phase : Phase) (env : Env) (test : BoolTest) (cmp1 cmp2 : Node) : Prop :=
  ∀ idx x flip, cmp1 = .bin idx (.arith .int .xor) x flip →
    phase.type cmp2 = .integer .int (zero 32) → phase.type flip = .integer .int (one 32) →
    test = .eq ∨ test = .ne → x.evalAt env .int = 0 ∨ x.evalAt env .int = 1

end BoolNode

/-! ## The relation that a test is for -/

namespace BoolTest

theorem relates_commute (test : BoolTest) (a b : ℤ) :
    test.commute.Relates a b ↔ test.Relates b a := by
  cases test <;> simp [commute, Relates, eq_comm]

theorem relates_negate (test : BoolTest) (a b : ℤ) :
    test.negate.Relates a b ↔ ¬ test.Relates a b := by
  cases test <;> simp [negate, Relates]

/-- Two values that are equal to their right sides in the same cases pass the same tests for
equality. -/
theorem relates_congr {test : BoolTest} {a b c d : ℤ} (htest : test = eq ∨ test = ne)
    (h : a = b ↔ c = d) : test.Relates a b ↔ test.Relates c d := by
  rcases htest with rfl | rfl
  · exact h
  · exact not_congr h

end BoolTest

namespace CmpOp

/-- The number that the comparison takes a value for. -/
def key (v : Value) : CmpOp → ℤ
  | cmpI => v.int.toInt
  | cmpU => v.int.toNat
  | cmpL => v.long.toInt

/-- The comparisons of ints tell any two ints apart. -/
theorem key_eq_iff {op : CmpOp} (hop : op ≠ cmpL) {v v' : Value} :
    op.key v = op.key v' ↔ v.int = v'.int := by
  cases op with
  | cmpI => exact BitVec.toInt_inj
  | cmpU => exact Int.natCast_inj.trans BitVec.toNat_inj
  | cmpL => exact absurd rfl hop

theorem holds_iff (op : CmpOp) (env : Env) (test : BoolTest) (idx : Nat) (a b : Node) :
    test.holds ((Node.bin idx op.binOp a b).eval env).int = true ↔
      test.Relates (op.key (a.eval env)) (op.key (b.eval env)) := by
  cases op with
  | cmpI =>
    exact holds_compare_iff BitVec.toInt (fun _ _ => BitVec.slt_iff_toInt_lt)
      (fun _ _ => BitVec.toInt_inj) test _ _
  | cmpU =>
    exact holds_compare_iff (fun x => (x.toNat : ℤ))
      (fun x y => by rw [BitVec.ult_iff_lt, BitVec.lt_def, Int.ofNat_lt])
      (fun _ _ => Int.natCast_inj.trans BitVec.toNat_inj) test _ _
  | cmpL =>
    exact holds_compare_iff BitVec.toInt (fun _ _ => BitVec.slt_iff_toInt_lt)
      (fun _ _ => BitVec.toInt_inj) test _ _

end CmpOp

namespace BoolNode

variable {env : Env}

/-- Two tests have the same value if they are for the same relation of their inputs. -/
theorem evalAt_bool_eq_iff {test test' : BoolTest} {op op' : CmpOp} {idx i idx' i' : Nat}
    {a b a' b' : Node} :
    (Node.bool idx test (.bin i op.binOp a b)).evalAt env .int =
      (Node.bool idx' test' (.bin i' op'.binOp a' b')).evalAt env .int ↔
    (test.Relates (op.key (a.eval env)) (op.key (b.eval env)) ↔
      test'.Relates (op'.key (a'.eval env)) (op'.key (b'.eval env))) := by
  rw [← op.holds_iff env test i, ← op'.holds_iff env test' i', ← Bool.eq_iff_iff]
  have hbits : ∀ p q : Bool, (if p then 1#32 else 0#32) = (if q then 1#32 else 0#32) ↔ p = q := by
    decide
  exact hbits _ _

section Rewrites

variable {phase : Phase} {loopExit : Bool} {isOpaque1 : Node → Bool} {test : BoolTest}
  {cop : CmpOp} {cmp1 cmp2 n : Node} {idx i : Nat}

/-- The value of a node that the phase knows to be a constant. -/
theorem evalAt_of_con {c : BitVec 32} (h : phase.Respects env n)
    (hcon : phase.type n = .integer .int (con c)) : n.evalAt env .int = c :=
  contains_con.mp (h.contains hcon)

/-- Only an exclusive or is taken for a flip. -/
theorem flipsBoolean_of_ne
    (h : ∀ idx x flip, cmp1 ≠ .bin idx (.arith .int .xor) x flip) :
    FlipsBoolean phase env test cmp1 cmp2 :=
  fun idx x flip hcmp1 => absurd hcmp1 (h idx x flip)

theorem commute_preserves :
    (newBool test.commute cop cmp2 cmp1).evalAt env .int =
      (Node.bool idx test (.bin i cop.binOp cmp1 cmp2)).evalAt env .int := by
  rw [newBool, Node.new, evalAt_bool_eq_iff, BoolTest.relates_commute]

/-- Looking through the exclusive or is right for a boolean. -/
theorem flip_exact {x flip : Node} {j : Nat}
    (hcmp1 : phase.Respects env (.bin j (.arith .int .xor) x flip))
    (hcmp2 : phase.Respects env cmp2) (hint : cop ≠ .cmpL)
    (hzero : phase.type cmp2 = .integer .int (zero 32))
    (hone : phase.type flip = .integer .int (one 32)) (htest : test = .eq ∨ test = .ne) :
    (newBool test.negate .cmpI x cmp2).evalAt env .int =
      (Node.bool idx test (.bin i cop.binOp (.bin j (.arith .int .xor) x flip) cmp2)).evalAt env
        .int ↔
      FlipsBoolean phase env test (.bin j (.arith .int .xor) x flip) cmp2 := by
  have hcmp2v : cmp2.evalAt env .int = 0 := evalAt_of_con hcmp2 hzero
  have hflip : flip.evalAt env .int = 1 := evalAt_of_con hcmp1.right hone
  have hxor : (Node.bin j (.arith .int .xor) x flip).evalAt env .int =
      x.evalAt env .int ^^^ 1 := by
    rw [evalAt_arith, hflip]
    rfl
  have hnew : CmpOp.cmpI.key (x.eval env) = CmpOp.cmpI.key (cmp2.eval env) ↔
      x.evalAt env .int = 0 := by
    rw [CmpOp.key_eq_iff (by decide)]
    change x.evalAt env .int = cmp2.evalAt env .int ↔ _
    rw [hcmp2v]
  have hold : cop.key ((Node.bin j (.arith .int .xor) x flip).eval env) =
      cop.key (cmp2.eval env) ↔ x.evalAt env .int = 1 := by
    rw [CmpOp.key_eq_iff hint]
    change (Node.bin j (.arith .int .xor) x flip).evalAt env .int = cmp2.evalAt env .int ↔ _
    rw [hxor, hcmp2v]
    exact BitVec.xor_eq_zero_iff
  have hflips : FlipsBoolean phase env test (.bin j (.arith .int .xor) x flip) cmp2 ↔
      x.evalAt env .int = 0 ∨ x.evalAt env .int = 1 := by
    constructor
    · intro h
      exact h j x flip rfl hzero hone htest
    · rintro h idx x' flip' heq - - -
      cases heq
      exact h
  rw [newBool, Node.new, evalAt_bool_eq_iff, BoolTest.relates_negate, hflips]
  have hne : ¬ (x.evalAt env .int = 0 ∧ x.evalAt env .int = 1) := by
    rintro ⟨h0, h1⟩
    rw [h0] at h1
    exact absurd h1 (by decide)
  rcases htest with rfl | rfl
  · rw [BoolTest.Relates, BoolTest.Relates, hnew, hold]
    tauto
  · rw [BoolTest.Relates, BoolTest.Relates, Ne, Ne, hnew, hold]
    tauto

/-- A rewrite of a test for equality that keeps when the two sides are equal. -/
theorem preserves_of_eq_iff (op : CmpOp) {x y : Node} (htest : test = .eq ∨ test = .ne)
    (h : op.key (x.eval env) = op.key (y.eval env) ↔
      cop.key (cmp1.eval env) = cop.key (cmp2.eval env)) :
    (newBool test op x y).evalAt env .int =
      (Node.bool idx test (.bin i cop.binOp cmp1 cmp2)).evalAt env .int := by
  rw [newBool, Node.new, evalAt_bool_eq_iff]
  exact BoolTest.relates_congr htest h

theorem conv2B_preserves {x : Node} {j : Nat} (hcmp2 : phase.Respects env cmp2)
    (hint : cop ≠ .cmpL) (hzero : phase.type cmp2 = .integer .int (zero 32))
    (htest : test = .eq ∨ test = .ne) :
    (newBool test .cmpI x cmp2).evalAt env .int =
      (Node.bool idx test (.bin i cop.binOp (.un j (.conv2B .int) x) cmp2)).evalAt env .int := by
  have hcmp2v : cmp2.evalAt env .int = 0 := evalAt_of_con hcmp2 hzero
  apply preserves_of_eq_iff _ htest
  rw [CmpOp.key_eq_iff (by decide), CmpOp.key_eq_iff hint]
  change x.evalAt env .int = cmp2.evalAt env .int ↔
    (if x.evalAt env .int = 0 then 0 else 1) = cmp2.evalAt env .int
  rw [hcmp2v]
  split_ifs <;> simp_all

theorem conv2BP_preserves {x : Node} {j : Nat} (hcmp2 : phase.Respects env cmp2)
    (hint : cop ≠ .cmpL) (hzero : phase.type cmp2 = .integer .int (zero 32))
    (htest : test = .eq ∨ test = .ne) :
    (newBoolP test x).evalAt env .int =
      (Node.bool idx test (.bin i cop.binOp (.un j (.conv2B .long) x) cmp2)).evalAt env .int := by
  have hcmp2v : cmp2.evalAt env .int = 0 := evalAt_of_con hcmp2 hzero
  refine preserves_of_eq_iff .cmpL htest ?_
  rw [CmpOp.key_eq_iff hint]
  change (x.evalAt env .long).toInt = (0 : BitVec 64).toInt ↔
    (if x.evalAt env .long = 0 then 0 else 1) = cmp2.evalAt env .int
  rw [hcmp2v, BitVec.toInt_inj]
  split_ifs <;> simp_all

theorem sub_preserves {a b : Node} {j : Nat} (hcmp2 : phase.Respects env cmp2)
    (hzero : phase.type cmp2 = .integer .int (zero 32)) (htest : test = .eq ∨ test = .ne) :
    (newBool test .cmpI a b).evalAt env .int =
      (Node.bool idx test (.bin i CmpOp.cmpI.binOp (.bin j (.arith .int .sub) a b) cmp2)).evalAt
        env .int := by
  have hcmp2v : cmp2.evalAt env .int = 0 := evalAt_of_con hcmp2 hzero
  apply preserves_of_eq_iff _ htest
  rw [CmpOp.key_eq_iff (by decide), CmpOp.key_eq_iff (by decide)]
  change a.evalAt env .int = b.evalAt env .int ↔
    (Node.bin j (.arith .int .sub) a b).evalAt env .int = cmp2.evalAt env .int
  rw [evalAt_arith, hcmp2v]
  change _ ↔ a.evalAt env .int - b.evalAt env .int = 0
  rw [sub_eq_zero]

/-- The types as high as `SYMINT` leave out the smallest int. -/
theorem toInt_gt_of_higherEqual_symint {ty : Ty} {v : Value} (h : ty.Holds v)
    (hhigher : ty.higherEqual .int symint = true) : -2 ^ 31 < v.int.toInt := by
  cases ty with
  | top => exact h.elim
  | bottom => simp [Ty.higherEqual] at hhigher
  | integer s t =>
    cases s with
    | long => simp [Ty.higherEqual] at hhigher
    | int =>
      rw [Ty.higherEqual_integer] at hhigher
      have hlo := (contains_iff.mp ((within_of_higherEqual hhigher).subset.contains h)).1
      have hsymint : symint.lo.toInt = -(2 ^ 31 - 1) := by decide
      change symint.lo.toInt ≤ v.int.toInt at hlo
      omega

theorem negation_preserves {a b : Node} {j : Nat}
    (hcmp1 : phase.Respects env (.bin j (.arith .int .sub) a b))
    (hcmp2 : phase.Respects env cmp2) (hzero : phase.type cmp2 = .integer .int (zero 32))
    (ha : phase.type a = .integer .int (zero 32))
    (hb : (phase.type b).higherEqual .int symint = true) :
    (newBool test.commute .cmpI b cmp2).evalAt env .int =
      (Node.bool idx test (.bin i CmpOp.cmpI.binOp (.bin j (.arith .int .sub) a b) cmp2)).evalAt
        env .int := by
  have hcmp2v : cmp2.evalAt env .int = 0 := evalAt_of_con hcmp2 hzero
  have hav : a.evalAt env .int = 0 := evalAt_of_con hcmp1.left ha
  have hbv : -2 ^ 31 < (b.evalAt env .int).toInt :=
    toInt_gt_of_higherEqual_symint hcmp1.right.holds hb
  rw [newBool, Node.new, evalAt_bool_eq_iff, BoolTest.relates_commute]
  change test.Relates (cmp2.evalAt env .int).toInt (b.evalAt env .int).toInt ↔
    test.Relates ((Node.bin j (.arith .int .sub) a b).evalAt env .int).toInt
      (cmp2.evalAt env .int).toInt
  have hneg : ((Node.bin j (.arith .int .sub) a b).evalAt env .int).toInt =
      -(b.evalAt env .int).toInt := by
    rw [evalAt_arith, hav]
    change ((0 : BitVec 32) - b.evalAt env .int).toInt = _
    rw [zero_sub, BitVec.toInt_neg_of_ne_intMin]
    intro hmin
    rw [hmin] at hbv
    exact absurd hbv (by decide)
  have hzeroInt : (0 : BitVec 32).toInt = 0 := rfl
  rw [hneg, hcmp2v, hzeroInt]
  cases test <;> simp only [BoolTest.Relates] <;> omega

/-- The new test has the value of the old one, unless it looks through an exclusive or of a
number that is no boolean. -/
theorem direction_exact (hcmp1 : phase.Respects env cmp1) (hcmp2 : phase.Respects env cmp2)
    (htyped : Typed phase cop cmp1 cmp2)
    (h : ideal phase loopExit isOpaque1 test cop cmp1 cmp2 = some n) :
    n.evalAt env .int = (Node.bool idx test (.bin i cop.binOp cmp1 cmp2)).evalAt env .int ↔
      FlipsBoolean phase env test cmp1 cmp2 := by
  unfold ideal at h
  split at h
  next hcon =>
    obtain rfl := Option.some.inj h
    refine iff_of_true commute_preserves (flipsBoolean_of_ne ?_)
    rintro idx x flip rfl
    simp [isCon] at hcon
  next =>
    split at h
    next => exact absurd h (by simp)
    next cmp2Type hcmp2Type =>
      have hint : cop ≠ .cmpL := by
        intro hlong
        rw [htyped.long hlong] at hcmp2Type
        exact absurd hcmp2Type (by simp)
      rw [Ty.isa_eq_some] at hcmp2Type
      split at h
      next j x flip =>
        split at h
        next hflip =>
          obtain rfl := Option.some.inj h
          simp only [Bool.and_eq_true, decide_eq_true_eq, Bool.or_eq_true] at hflip
          obtain ⟨⟨rfl, hone⟩, htest⟩ := hflip
          exact flip_exact hcmp1 hcmp2 hint hcmp2Type hone htest
        next => exact absurd h (by simp)
      next j s x _ =>
        split at h
        next htests =>
          simp only [Bool.and_eq_true, decide_eq_true_eq, Bool.or_eq_true] at htests
          obtain ⟨rfl, htest⟩ := htests
          refine iff_of_true ?_ (flipsBoolean_of_ne (by simp))
          have hs := htyped.conv2B j s x rfl
          split at h
          next hsome =>
            obtain rfl := hs.mp hsome
            obtain rfl := Option.some.inj h
            exact conv2B_preserves hcmp2 hint hcmp2Type htest
          next hnone =>
            obtain rfl := Option.some.inj h
            cases s with
            | int => exact absurd (hs.mpr rfl) hnone
            | long => exact conv2BP_preserves hcmp2 hint hcmp2Type htest
        next => exact absurd h (by simp)
      next j a b =>
        refine iff_of_true ?_ (flipsBoolean_of_ne (by simp))
        split at h
        next htests =>
          simp only [Bool.and_eq_true, decide_eq_true_eq, Bool.or_eq_true] at htests
          obtain ⟨⟨htest, rfl⟩, rfl⟩ := htests
          obtain rfl := Option.some.inj h
          exact sub_preserves hcmp2 hcmp2Type htest
        next =>
          split at h
          next htests =>
            simp only [Bool.and_eq_true, decide_eq_true_eq] at htests
            obtain ⟨⟨⟨rfl, rfl⟩, ha⟩, hb⟩ := htests
            obtain rfl := Option.some.inj h
            exact negation_preserves hcmp1 hcmp2 hcmp2Type ha hb
          next => exact absurd h (by simp)
      next => exact absurd h (by simp)

end Rewrites

/-- A phase that knows the constants. -/
def constantPhase : Phase where
  type n :=
    match n with
    | .con s c => .integer s (con c)
    | _ => .integer .int (full 32)
  hasMatchRuleMulHiL := false
  conditionalMoveLimit := 0

/-- A flipped boolean that is compared with zero. -/
def flipped : Node := .bin 1 (.arith .int .xor) (.leaf 0) (.con .int 1)

theorem constantPhase_respects_flipped (int : BitVec 32) :
    constantPhase.Respects (constantEnv int 0) flipped :=
  ⟨contains_full (by decide) _, contains_full (by decide) _, contains_con.mpr rfl⟩

theorem constantPhase_typed : Typed constantPhase .cmpI flipped (.con .int 0) where
  long := by decide
  conv2B := by
    intro idx s x h
    exact absurd h (by simp [flipped])

theorem direction_exact_flipped :
    (newBool .ne .cmpI (.leaf 0) (.con .int 0)).evalAt (constantEnv 1 0) .int =
        (Node.bool 3 .eq (.bin 2 (.cmp .int) flipped (.con .int 0))).evalAt (constantEnv 1 0) .int ↔
      FlipsBoolean constantPhase (constantEnv 1 0) .eq flipped (.con .int 0) :=
  @direction_exact (constantEnv 1 0) constantPhase false (fun _ => false) .eq .cmpI _ _ _ 3 2
    (constantPhase_respects_flipped 1) (contains_con.mpr rfl) constantPhase_typed rfl

/-- Neither 2 nor 2 with its lowest bit flipped is zero. -/
theorem direction_not_kept : ∃ n,
    ideal constantPhase false (fun _ => false) .eq .cmpI flipped (.con .int 0) = some n ∧
    constantPhase.Respects (constantEnv 2 0) flipped ∧
    constantPhase.Respects (constantEnv 2 0) (.con .int 0) ∧
    n.evalAt (constantEnv 2 0) .int = 1 ∧
    (Node.bool 3 .eq (.bin 2 (.cmp .int) flipped (.con .int 0))).evalAt (constantEnv 2 0) .int =
      0 :=
  ⟨_, rfl, constantPhase_respects_flipped 2, contains_con.mpr rfl, by decide, by decide⟩

end BoolNode

end HotSpot.Opto
