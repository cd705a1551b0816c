import HotSpot.Lib.SignedWord
import HotSpot.Opto.Node

/-! # Minimums

`MinINode::Ideal`, which shows up in the limits of loops without range checks: of the
minimum of two sums with the same base only the sum of the smaller constant remains. The
new minima that it makes are transformed, which applies it to them until nothing changes,
so that the sums that are folded are those of one tree of minima after the other.
-/

namespace HotSpot.Opto

/-- `MIN2`. -/
def min2 {w : Nat} (x y : BitVec w) : BitVec w := if x.slt y then x else y

namespace MinINode

/-- The base and the constant of "x+c"; any other node has the constant 0. -/
def baseAndOffset : Node → Node × BitVec 32
  | .bin _ (.arith .int .add) x (.con .int c) => (x, c)
  | n => (n, 0)

def isMinI : Node → Bool
  | .bin _ .minI _ _ => true
  | _ => false

/-- "x+c0 or x+c1 which less". -/
def smallerSum (x : Node) (xOff yOff : BitVec 32) : Node :=
  .newArith .int .add x (.con .int (min2 xOff yOff))

/-- What `phase` knows of the nodes, and does to one to which `Ideal` of a minimum no longer
applies. -/
structure Phase where
  /-- `_idx`, for any numbering of the nodes. -/
  number : Node → Nat
  /-- `_delay_transform` of the iterative phase: a new node is only registered. -/
  delayTransform : Bool
  /-- `Value`, `Identity` and the hash table, and `Ideal` of what is no minimum. -/
  finish : Node → Node

/-- `MinINode::Ideal` of the node `idx` with the inputs `l` and `r`, which makes new nodes by
`transform`: none if that does not end, and otherwise the node it returns, if any. -/
def ideal (phase : Phase) (transform : Node → Option Node) (idx : Nat) (l r : Node) :
    Option (Option Node) :=
  match l with
  | .bin _ .minI a b => do
      -- Force a right-spline graph.
      let r ← transform (.new .minI b r)
      return some (.bin idx .minI a r)
  | _ =>
    let (x, xOff) := baseAndOffset l
    let (y, yOff) := baseAndOffset r
    if phase.number y < phase.number x && !isMinI r then some (some (.bin idx .minI r l))
    else
      match r with
      | .bin _ .minI b z =>
        let (y, yOff) := baseAndOffset b
        if phase.number y < phase.number x then do
          let inner ← transform (.new .minI l z)
          return some (.new .minI b inner)
        else if x = y then do
          let sum ← transform (smallerSum x xOff yOff)
          return some (.new .minI sum z)
        else some none
      | _ => if x = y then some (some (smallerSum x xOff yOff)) else some none

/-- `phase->transform`: `Ideal` is applied until it makes no progress. -/
def transform (phase : Phase) : Nat → Node → Option Node
  | 0, _ => none
  | fuel + 1, n =>
    if phase.delayTransform then some n
    else
      match n with
      | .bin idx .minI l r =>
        match ideal phase (transform phase fuel) idx l r with
        | none => none
        | some none => some (phase.finish (.bin idx .minI l r))
        | some (some k) => transform phase fuel k
      | n => some (phase.finish n)

/-! ## Which folds keep the minimum -/

variable (env : Env)

def value (n : Node) : Int := (n.evalAt env .int).toInt

/-- Of two sums that are folded both wrap or none does; or else what is left of the tree, with
the minimum `m`, is no larger than either sum. -/
def SumsAlike (m : Int) (x c0 c1 : BitVec 32) : Prop :=
  x.saddOverflow c0 = x.saddOverflow c1 ∨ m ≤ (x + c0).toInt ∧ m ≤ (x + c1).toInt

/-- The fold of one application of `Ideal`, and those of the node that it transforms, inside a
tree whose other leaves have the minimum `m`. -/
def IdealKeeps (phase : Phase) (keeps : Int → Node → Prop) (m : Int) (l r : Node) : Prop :=
  match l with
  | .bin _ .minI a b => keeps (min m (value env a)) (.new .minI b r)
  | _ =>
    let (x, xOff) := baseAndOffset l
    let (y, yOff) := baseAndOffset r
    if phase.number y < phase.number x && !isMinI r then True
    else
      match r with
      | .bin _ .minI b z =>
        let (y, yOff) := baseAndOffset b
        if phase.number y < phase.number x then
          keeps (min m (value env b)) (.new .minI l z)
        else x = y → SumsAlike (min m (value env z)) (x.evalAt env .int) xOff yOff
      | _ => x = y → SumsAlike m (x.evalAt env .int) xOff yOff

/-- All the folds that `phase->transform` makes of a node, each in the tree as it is then. -/
def TransformKeeps (phase : Phase) : Nat → Int → Node → Prop
  | 0, _, _ => True
  | fuel + 1, m, n =>
    if phase.delayTransform then True
    else
      match n with
      | .bin idx .minI l r =>
        IdealKeeps env phase (TransformKeeps phase fuel) m l r ∧
          ∀ k, ideal phase (transform phase fuel) idx l r = some (some k) →
            TransformKeeps phase fuel m k
      | _ => True

/-- The rest of a phase replaces a node by one with the same value. -/
def Phase.Preserves (phase : Phase) : Prop :=
  ∀ n, (phase.finish n).evalAt env .int = n.evalAt env .int

end MinINode

/-! ## Minimums of wrapping sums -/

section Min2

variable {w : Nat} (x y z : BitVec w)

theorem toInt_min2 : (min2 x y).toInt = min x.toInt y.toInt := toInt_ite_slt x y

theorem saddOverflow_iff : x.saddOverflow y = true ↔
    2 ^ (w - 1) ≤ x.toInt + y.toInt ∨ x.toInt + y.toInt < -2 ^ (w - 1) := by
  rw [BitVec.saddOverflow, Bool.or_eq_true, decide_eq_true_eq, decide_eq_true_eq]

variable {x z} {c0 c1 : BitVec w}

/-- Two sums are ordered as their constants exactly if both wrap or none does. -/
theorem toInt_add_le_iff (hw : 0 < w) (hle : c0.toInt ≤ c1.toInt) :
    (x + c0).toInt ≤ (x + c1).toInt ↔ x.saddOverflow c0 = x.saddOverflow c1 := by
  rw [Bool.eq_iff_iff, saddOverflow_iff, saddOverflow_iff]
  have h0 := toInt_add_cases hw x c0
  have h1 := toInt_add_cases hw x c1
  have hlo := BitVec.le_toInt c0
  have hhi := BitVec.toInt_lt (x := c1)
  have hx := BitVec.le_toInt x
  have hx' := BitVec.toInt_lt (x := x)
  omega

variable (x c0 c1) in
/-- The smaller constant makes the smaller sum, unless one sum wraps alone. A third number
that is no larger than either sum hides the difference. -/
theorem min_add_min2_eq_iff (hw : 0 < w) (m : Int) :
    min (x + min2 c0 c1).toInt m = min (x + c0).toInt (min (x + c1).toInt m) ↔
      x.saddOverflow c0 = x.saddOverflow c1 ∨ m ≤ (x + c0).toInt ∧ m ≤ (x + c1).toInt := by
  rw [min2]
  split
  next hlt =>
    rw [BitVec.slt_iff_toInt_lt] at hlt
    rw [← toInt_add_le_iff hw hlt.le]
    omega
  next hge =>
    rw [BitVec.slt_iff_toInt_lt] at hge
    rw [eq_comm (a := x.saddOverflow c0), ← toInt_add_le_iff hw (not_lt.mp hge)]
    omega

end Min2

/-! ## What `Ideal` preserves -/

namespace MinINode

variable {env : Env} {phase : Phase} {idx : Nat} {l r n n' : Node} {m : Int}

@[simp] theorem value_minI (x y : Node) :
    value env (.bin idx .minI x y) = min (value env x) (value env y) := toInt_min2 _ _

@[simp] theorem value_new (x y : Node) :
    value env (.new .minI x y) = min (value env x) (value env y) := value_minI x y

theorem evalAt_baseAndOffset (n : Node) : n.evalAt env .int =
    (baseAndOffset n).1.evalAt env .int + (baseAndOffset n).2 := by
  fun_cases baseAndOffset n with
  | case1 idx x c => rfl
  | case2 => simp

/-- A fold keeps the minimum with `m` just where the sums are alike, and never lowers it. -/
theorem value_smallerSum {x y : Node} (hbase : (baseAndOffset x).1 = (baseAndOffset y).1) :
    min (value env x) (value env y) ≤
        value env (smallerSum (baseAndOffset x).1 (baseAndOffset x).2 (baseAndOffset y).2) ∧
      (min (value env (smallerSum (baseAndOffset x).1 (baseAndOffset x).2 (baseAndOffset y).2)) m =
          min (value env x) (min (value env y) m) ↔
        SumsAlike m ((baseAndOffset x).1.evalAt env .int) (baseAndOffset x).2
          (baseAndOffset y).2) := by
  have hx : value env x = _ := congrArg BitVec.toInt (evalAt_baseAndOffset x)
  have hy : value env y = _ := congrArg BitVec.toInt (evalAt_baseAndOffset y)
  rw [hx, hy, ← hbase]
  generalize (baseAndOffset x).1 = base
  refine ⟨?_, min_add_min2_eq_iff _ _ _ (by decide) m⟩
  change _ ≤ (base.evalAt env .int + min2 (baseAndOffset x).2 (baseAndOffset y).2).toInt
  rw [min2]
  split
  · exact min_le_left _ _
  · exact min_le_right _ _

theorem isMinI_eq_false (h : ∀ idx x y, n = .bin idx .minI x y → False) : isMinI n = false := by
  unfold isMinI
  split
  next idx x y => exact (h idx x y rfl).elim
  next => rfl

/-- What is known of a transformation: it never lowers a value, keeps that of what is no
minimum, and that of a minimum inside a tree where its folds do. -/
structure Transforms (env : Env) (transform : Node → Option Node)
    (keeps : Int → Node → Prop) : Prop where
  le : ∀ {n n'}, transform n = some n' → value env n ≤ value env n'
  exact : ∀ {n n'} m, transform n = some n' →
    (min m (value env n') = min m (value env n) ↔ keeps m n)
  other : ∀ {n n'}, isMinI n = false → transform n = some n' → value env n' = value env n

/-- One application of `Ideal`. -/
theorem Transforms.ideal {transform : Node → Option Node} {keeps : Int → Node → Prop}
    (ht : Transforms env transform keeps) (m : Int)
    (h : MinINode.ideal phase transform idx l r = some (some n)) :
    min (value env l) (value env r) ≤ value env n ∧
      (min m (value env n) = min m (min (value env l) (value env r)) ↔
        IdealKeeps env phase keeps m l r) := by
  unfold MinINode.ideal at h
  unfold IdealKeeps
  split at h
  next lidx a b =>
    obtain ⟨r', hr', hn⟩ := Option.bind_eq_some_iff.mp h
    obtain rfl : Node.bin idx .minI a r' = n := by simpa using hn
    have hle := ht.le hr'
    rw [value_new] at hle
    rw [← ht.exact _ hr', value_minI, value_minI, value_new]
    omega
  next hl =>
    dsimp only at h ⊢
    split at h
    next hswap =>
      obtain rfl := Option.some.inj (Option.some.inj h)
      rw [if_pos hswap, value_minI, iff_true]
      omega
    next hswap =>
      rw [if_neg hswap]
      split at h
      next ridx b z =>
        split at h
        next hnumber =>
          obtain ⟨inner, hinner, hn⟩ := Option.bind_eq_some_iff.mp h
          obtain rfl : Node.new .minI b inner = n := by simpa using hn
          have hle := ht.le hinner
          rw [value_new] at hle
          rw [if_pos hnumber, ← ht.exact _ hinner, value_minI, value_new, value_new]
          omega
        next hnumber =>
          split at h
          next hbase =>
            obtain ⟨sum, hsum, hn⟩ := Option.bind_eq_some_iff.mp h
            obtain rfl : Node.new .minI sum z = n := by simpa using hn
            obtain ⟨hle, hfold⟩ := @value_smallerSum env (min m (value env z)) l b hbase
            rw [← ht.other rfl hsum] at hle hfold
            rw [if_neg hnumber, forall_prop_of_true hbase, ← hfold, value_minI, value_new]
            omega
          next => cases h
      next hr =>
        split at h
        next hbase =>
          obtain rfl := Option.some.inj (Option.some.inj h)
          obtain ⟨hle, hfold⟩ := @value_smallerSum env m l r hbase
          rw [forall_prop_of_true hbase, ← hfold]
          omega
        next => cases h

/-- Where `Ideal` makes no progress nothing is folded. -/
theorem idealKeeps_of_none {transform : Node → Option Node} {keeps : Int → Node → Prop}
    (h : ideal phase transform idx l r = some none) : IdealKeeps env phase keeps m l r := by
  unfold ideal at h
  unfold IdealKeeps
  split at h
  next a b =>
    obtain ⟨r', -, hn⟩ := Option.bind_eq_some_iff.mp h
    cases hn
  next hl =>
    dsimp only at h ⊢
    split at h
    next => cases h
    next hswap =>
      rw [if_neg hswap]
      split at h
      next ridx b z =>
        split at h
        next =>
          obtain ⟨inner, -, hn⟩ := Option.bind_eq_some_iff.mp h
          cases hn
        next hnumber =>
          rw [if_neg hnumber]
          intro hbase
          rw [if_pos hbase] at h
          obtain ⟨sum, -, hn⟩ := Option.bind_eq_some_iff.mp h
          cases hn
      next hr =>
        intro hbase
        rw [if_pos hbase] at h
        cases h

theorem exists_of_isMinI (h : isMinI n = true) : ∃ idx l r, n = .bin idx .minI l r := by
  unfold isMinI at h
  split at h
  next idx l r => exact ⟨idx, l, r, rfl⟩
  next => cases h

theorem transform_other {fuel : Nat} (h : isMinI n = false) :
    transform phase (fuel + 1) n =
      some (if phase.delayTransform then n else phase.finish n) := by
  cases n with
  | bin idx op x y =>
    cases op with
    | minI => cases h
    | _ => cases hdelay : phase.delayTransform <;> simp [transform, hdelay]
  | _ => cases hdelay : phase.delayTransform <;> simp [transform, hdelay]

theorem transformKeeps_other {fuel : Nat} (h : isMinI n = false) :
    TransformKeeps env phase (fuel + 1) m n := by
  cases n with
  | bin idx op x y =>
    cases op with
    | minI => cases h
    | _ => simp [TransformKeeps]
  | _ => simp [TransformKeeps]

/-- `phase->transform`, by induction over how often it applies `Ideal`. -/
theorem transforms_transform (hfinish : phase.Preserves env) (fuel : Nat) :
    Transforms env (transform phase fuel) (TransformKeeps env phase fuel) := by
  have hvalue : ∀ n, value env (phase.finish n) = value env n :=
    fun n => congrArg BitVec.toInt (hfinish n)
  induction fuel with
  | zero => constructor <;> intros <;> contradiction
  | succ fuel ih =>
    have hother : ∀ {n n'}, isMinI n = false → transform phase (fuel + 1) n = some n' →
        value env n' = value env n := by
      intro n n' hn h
      rw [transform_other hn] at h
      rw [← Option.some.inj h]
      split
      · rfl
      · exact hvalue n
    have hstep : ∀ {n n'} m, transform phase (fuel + 1) n = some n' →
        value env n ≤ value env n' ∧ (min m (value env n') = min m (value env n) ↔
          TransformKeeps env phase (fuel + 1) m n) := by
      intro n n' m h
      cases hn : isMinI n with
      | false =>
        rw [hother hn h]
        exact ⟨le_rfl, iff_of_true rfl (transformKeeps_other hn)⟩
      | true =>
        obtain ⟨idx, l, r, rfl⟩ := exists_of_isMinI hn
        rw [transform] at h
        rw [TransformKeeps]
        split at h
        next hdelay =>
          rw [← Option.some.inj h, if_pos hdelay]
          exact ⟨le_rfl, iff_of_true rfl trivial⟩
        next hdelay =>
          rw [if_neg hdelay]
          split at h
          next => cases h
          next hideal =>
            rw [← Option.some.inj h, hvalue, hideal]
            exact ⟨le_rfl, iff_of_true rfl ⟨idealKeeps_of_none hideal, fun _ hk => by cases hk⟩⟩
          next k hideal =>
            obtain ⟨hle, hexact⟩ := ih.ideal m hideal
            have hle' := ih.le h
            simp only [hideal, Option.some.injEq, forall_eq']
            rw [value_minI, ← hexact, ← ih.exact m h]
            omega
    exact ⟨fun h => (hstep 0 h).1, fun m h => (hstep m h).2, hother⟩

/-- The value of what `Ideal` returns, where it ends. -/
theorem evalAt_ideal_iff (hfinish : phase.Preserves env) {fuel : Nat}
    (h : ideal phase (transform phase fuel) idx l r = some (some n)) :
    n.evalAt env .int = (Node.bin idx .minI l r).evalAt env .int ↔
      IdealKeeps env phase (TransformKeeps env phase fuel) (2 ^ 31) l r := by
  obtain ⟨-, hexact⟩ := (transforms_transform hfinish fuel).ideal (2 ^ 31) h
  have hlt (x : Node) : value env x < 2 ^ 31 := BitVec.toInt_lt
  have hn := hlt n
  have hl := hlt l
  rw [← hexact, ← BitVec.toInt_inj]
  change value env n = value env (.bin idx .minI l r) ↔ _
  rw [value_minI]
  omega

/-! ## The transformation ends -/

/-- The minima of a tree. -/
def minima : Node → Nat
  | .un _ _ x => minima x
  | .bin _ .minI x y => minima x + minima y + 1
  | .bin _ _ x y => minima x + minima y
  | .bool _ _ cmp => minima cmp
  | .cmove _ bol ifFalse ifTrue => minima bol + minima ifFalse + minima ifTrue
  | _ => 0

/-- The minima that are no part of the right spline. -/
def lefts : Node → Nat
  | .bin _ .minI x y => minima x + lefts y
  | n => minima n

/-- The number that `Ideal` lowers where it exchanges two inputs. -/
def firstNumber (phase : Phase) : Node → Nat
  | .bin _ .minI x _ => phase.number (baseAndOffset x).1
  | _ => 0

/-- The rest of a phase makes no minima, and none that is out of the right spline. -/
def Phase.Shrinks (phase : Phase) : Prop :=
  ∀ n, minima (phase.finish n) ≤ minima n ∧ lefts (phase.finish n) ≤ lefts n

theorem lefts_of_not_isMinI (h : isMinI n = false) : lefts n = minima n := by
  cases n with
  | bin idx op x y =>
    cases op with
    | minI => cases h
    | _ => rfl
  | _ => rfl

theorem minima_baseAndOffset (n : Node) : minima (baseAndOffset n).1 ≤ minima n := by
  fun_cases baseAndOffset n with
  | case1 idx x c => exact Nat.le_add_right _ _
  | case2 => exact le_rfl

theorem minima_smallerSum (x : Node) (c0 c1 : BitVec 32) :
    minima (smallerSum x c0 c1) = minima x := rfl

/-- A transformation that makes no minima. -/
def Shrinking (transform : Node → Option Node) : Prop :=
  ∀ n n', transform n = some n' → minima n' ≤ minima n ∧ lefts n' ≤ lefts n

/-- One application of `Ideal` makes no minima, and makes progress. -/
theorem Shrinking.ideal {transform : Node → Option Node} (ht : Shrinking transform)
    (h : MinINode.ideal phase transform idx l r = some (some n)) :
    minima n ≤ minima (.bin idx .minI l r) ∧ lefts n ≤ lefts (.bin idx .minI l r) ∧
      (minima n < minima (.bin idx .minI l r) ∨ lefts n < lefts (.bin idx .minI l r) ∨
        firstNumber phase n < firstNumber phase (.bin idx .minI l r)) := by
  unfold MinINode.ideal at h
  split at h
  next lidx a b =>
    obtain ⟨r', hr', hn⟩ := Option.bind_eq_some_iff.mp h
    obtain rfl : Node.bin idx .minI a r' = n := by simpa using hn
    have hshrink := ht _ _ hr'
    simp only [minima, lefts, Node.new] at hshrink ⊢
    omega
  next hl =>
    have hminI := isMinI_eq_false hl
    dsimp only at h
    split at h
    next hswap =>
      obtain rfl := Option.some.inj (Option.some.inj h)
      simp only [Bool.and_eq_true, decide_eq_true_eq, Bool.not_eq_true'] at hswap
      simp only [minima, lefts, lefts_of_not_isMinI hminI, lefts_of_not_isMinI hswap.2,
        firstNumber]
      omega
    next hswap =>
      split at h
      next ridx b z =>
        split at h
        next hnumber =>
          obtain ⟨inner, hinner, hn⟩ := Option.bind_eq_some_iff.mp h
          obtain rfl : Node.new .minI b inner = n := by simpa using hn
          have hshrink := ht _ _ hinner
          simp only [minima, lefts, Node.new, firstNumber] at hshrink ⊢
          omega
        next hnumber =>
          split at h
          next hbase =>
            obtain ⟨sum, hsum, hn⟩ := Option.bind_eq_some_iff.mp h
            obtain rfl : Node.new .minI sum z = n := by simpa using hn
            have hshrink := ht _ _ hsum
            have hle := minima_baseAndOffset l
            rw [minima_smallerSum] at hshrink
            simp only [minima, lefts, Node.new]
            omega
          next => cases h
      next hr =>
        split at h
        next hbase =>
          obtain rfl := Option.some.inj (Option.some.inj h)
          have hle := minima_baseAndOffset l
          have hleft : lefts (smallerSum (baseAndOffset l).1 (baseAndOffset l).2
            (baseAndOffset r).2) = minima (baseAndOffset l).1 := rfl
          rw [hleft, minima_smallerSum]
          simp only [minima, lefts]
          omega
        next => cases h

theorem shrinking_transform (hfinish : phase.Shrinks) (fuel : Nat) :
    Shrinking (transform phase fuel) := by
  induction fuel with
  | zero => exact fun _ _ h => by cases h
  | succ fuel ih =>
    intro n n' h
    cases hn : isMinI n with
    | false =>
      rw [transform_other hn] at h
      rw [← Option.some.inj h]
      split
      · exact ⟨le_rfl, le_rfl⟩
      · exact hfinish n
    | true =>
      obtain ⟨idx, l, r, rfl⟩ := exists_of_isMinI hn
      rw [transform] at h
      split at h
      next => rw [Option.some.inj h]; exact ⟨le_rfl, le_rfl⟩
      next =>
        split at h
        next => cases h
        next => rw [← Option.some.inj h]; exact hfinish _
        next k hideal =>
          obtain ⟨hminima, hlefts, -⟩ := ih.ideal hideal
          have hrest := ih _ _ h
          omega

/-- With more fuel nothing else is made. -/
theorem ideal_mono {t t' : Node → Option Node} (ht : ∀ {n n'}, t n = some n' → t' n = some n')
    {o : Option Node} (h : ideal phase t idx l r = some o) : ideal phase t' idx l r = some o := by
  have hbind : ∀ {n : Node} {f : Node → Option Node},
      (t n).bind (fun k => some (f k)) = some o → (t' n).bind (fun k => some (f k)) = some o := by
    intro n f hn
    obtain ⟨k, hk, ho⟩ := Option.bind_eq_some_iff.mp hn
    exact Option.bind_eq_some_iff.mpr ⟨k, ht hk, ho⟩
  unfold ideal at h ⊢
  split at h
  next => exact hbind h
  next =>
    dsimp only at h ⊢
    split at h
    next hswap => rw [if_pos hswap, h]
    next hswap =>
      rw [if_neg hswap]
      split at h
      next =>
        split at h
        next hnumber => rw [if_pos hnumber]; exact hbind h
        next hnumber =>
          rw [if_neg hnumber]
          split at h
          next hbase => rw [if_pos hbase]; exact hbind h
          next hbase => rw [if_neg hbase, h]
      next => exact h

theorem transform_succ {fuel : Nat} (h : transform phase fuel n = some n') :
    transform phase (fuel + 1) n = some n' := by
  induction fuel generalizing n n' with
  | zero => cases h
  | succ fuel ih =>
    cases hn : isMinI n with
    | false =>
      rw [transform_other hn] at h ⊢
      exact h
    | true =>
      obtain ⟨idx, l, r, rfl⟩ := exists_of_isMinI hn
      rw [transform] at h ⊢
      split at h
      next hdelay => rw [if_pos hdelay, h]
      next hdelay =>
        rw [if_neg hdelay]
        split at h
        next => cases h
        next hideal => rw [ideal_mono ih hideal]; exact h
        next k hideal => rw [ideal_mono ih hideal]; exact ih h

theorem transform_le {fuel fuel' : Nat} (hle : fuel ≤ fuel')
    (h : transform phase fuel n = some n') : transform phase fuel' n = some n' := by
  induction hle with
  | refl => exact h
  | step _ ih => exact transform_succ ih

/-- `Ideal` ends if the transformation of every smaller tree does. -/
theorem exists_ideal_of_smaller (idx : Nat)
    (hsmaller : ∀ n, minima n < minima (.bin idx .minI l r) →
      ∃ fuel n', transform phase fuel n = some n') :
    ∃ fuel o, ideal phase (transform phase fuel) idx l r = some o := by
  unfold ideal
  split
  next lidx a b =>
    obtain ⟨fuel, r', hr'⟩ := hsmaller (.new .minI b r) (by simp only [minima, Node.new]; omega)
    exact ⟨fuel, _, Option.bind_eq_some_iff.mpr ⟨r', hr', rfl⟩⟩
  next hl =>
    dsimp only
    split
    next => exact ⟨0, _, rfl⟩
    next hswap =>
      split
      next ridx b z =>
        split
        next =>
          obtain ⟨fuel, inner, hinner⟩ := hsmaller (.new .minI l z)
            (by simp only [minima, Node.new]; omega)
          exact ⟨fuel, _, Option.bind_eq_some_iff.mpr ⟨inner, hinner, rfl⟩⟩
        next =>
          split
          next =>
            have hle := minima_baseAndOffset l
            obtain ⟨fuel, sum, hsum⟩ := hsmaller
              (smallerSum (baseAndOffset l).1 (baseAndOffset l).2 (baseAndOffset b).2)
              (by rw [minima_smallerSum]; simp only [minima]; omega)
            exact ⟨fuel, _, Option.bind_eq_some_iff.mpr ⟨sum, hsum, rfl⟩⟩
          next => exact ⟨0, _, rfl⟩
      next => split <;> exact ⟨0, _, rfl⟩

/-- What `Ideal` is applied to has fewer minima each time, or fewer out of the right spline, or
a smaller first number. -/
theorem exists_transform (hfinish : phase.Shrinks) (n : Node) :
    ∃ fuel n', transform phase fuel n = some n' := by
  have hwf := InvImage.wf (fun n => toLex (minima n, toLex (lefts n, firstNumber phase n)))
    (wellFounded_lt : WellFounded ((· < ·) : ℕ ×ₗ ℕ ×ₗ ℕ → ℕ ×ₗ ℕ ×ₗ ℕ → Prop))
  induction n using hwf.induction with
  | h n ih =>
    cases hn : isMinI n with
    | false => exact ⟨1, _, transform_other hn⟩
    | true =>
      obtain ⟨idx, l, r, rfl⟩ := exists_of_isMinI hn
      by_cases hdelay : phase.delayTransform = true
      · exact ⟨1, _, by rw [transform, if_pos hdelay]⟩
      obtain ⟨fuel, o, ho⟩ := exists_ideal_of_smaller idx fun n hlt =>
        ih n (Prod.Lex.toLex_lt_toLex.mpr (Or.inl hlt))
      cases o with
      | none =>
        refine ⟨fuel + 1, phase.finish (.bin idx .minI l r), ?_⟩
        rw [transform, if_neg hdelay, ho]
      | some k =>
        obtain ⟨hminima, hlefts, hprogress⟩ := (shrinking_transform hfinish fuel).ideal ho
        have hless : minima k < minima (.bin idx .minI l r) ∨
            minima k = minima (.bin idx .minI l r) ∧ toLex (lefts k, firstNumber phase k) <
              toLex (lefts (.bin idx .minI l r), firstNumber phase (.bin idx .minI l r)) := by
          rw [Prod.Lex.toLex_lt_toLex]
          omega
        obtain ⟨fuel', n', hn'⟩ := ih k (Prod.Lex.toLex_lt_toLex.mpr hless)
        refine ⟨max fuel fuel' + 1, n', ?_⟩
        rw [transform, if_neg hdelay]
        simp only [ideal_mono (transform_le (le_max_left fuel fuel')) ho]
        exact transform_le (le_max_right fuel fuel') hn'

/-- `Ideal` ends. -/
theorem exists_ideal (hfinish : phase.Shrinks) (idx : Nat) (l r : Node) :
    ∃ fuel o, ideal phase (transform phase fuel) idx l r = some o :=
  exists_ideal_of_smaller idx fun n _ => exists_transform hfinish n

/-- `Ideal` ends, and the node that it returns has the value of the minimum just where all
the folds on the way to it keep the minimum of the tree. -/
theorem minimum_exact (hpreserves : phase.Preserves env) (hshrinks : phase.Shrinks) (idx : Nat)
    (l r : Node) :
    (∃ fuel o, ideal phase (transform phase fuel) idx l r = some o) ∧
      ∀ fuel n, ideal phase (transform phase fuel) idx l r = some (some n) →
        (n.evalAt env .int = (Node.bin idx .minI l r).evalAt env .int ↔
          IdealKeeps env phase (TransformKeeps env phase fuel) (2 ^ 31) l r) :=
  ⟨exists_ideal hshrinks idx l r, fun _ _ h => evalAt_ideal_iff hpreserves h⟩

/-- A phase that numbers leaves by themselves and all else by 0. -/
def leafPhase : Phase where
  number
    | .leaf idx => idx
    | _ => 0
  delayTransform := false
  finish n := n

/-- "MIN2(MIN2(y,x+2),x+7)" for a limit: the sums end up in one minimum, which is folded. -/
theorem minimum_exact_limit :
    ∃ n, ideal leafPhase (transform leafPhase 2) 7
        (.bin 6 .minI (.leaf 1) (.bin 4 (.arith .int .add) (.leaf 2) (.con .int 2)))
        (.bin 5 (.arith .int .add) (.leaf 2) (.con .int 7)) = some (some n) ∧
      (n.evalAt (constantEnv 100 0) .int = (Node.bin 7 .minI
          (.bin 6 .minI (.leaf 1) (.bin 4 (.arith .int .add) (.leaf 2) (.con .int 2)))
          (.bin 5 (.arith .int .add) (.leaf 2) (.con .int 7))).evalAt (constantEnv 100 0) .int ↔
        IdealKeeps (constantEnv 100 0) leafPhase (TransformKeeps (constantEnv 100 0) leafPhase 2)
          (2 ^ 31) (.bin 6 .minI (.leaf 1) (.bin 4 (.arith .int .add) (.leaf 2) (.con .int 2)))
          (.bin 5 (.arith .int .add) (.leaf 2) (.con .int 7))) :=
  ⟨_, rfl, (@minimum_exact (constantEnv 100 0) leafPhase (fun _ => rfl)
    (fun _ => ⟨le_rfl, le_rfl⟩) 7 _ _).2 2 _ rfl⟩

/-- The sum of the largest int and 1 wraps, that with 0 does not. -/
theorem minimum_not_kept : ∃ n,
    ideal leafPhase (transform leafPhase 1) 5 (.leaf 0)
      (.bin 4 (.arith .int .add) (.leaf 0) (.con .int 1)) = some (some n) ∧
    n.evalAt (constantEnv (BitVec.intMax 32) 0) .int = BitVec.intMax 32 ∧
    (Node.bin 5 .minI (.leaf 0) (.bin 4 (.arith .int .add) (.leaf 0) (.con .int 1))).evalAt
      (constantEnv (BitVec.intMax 32) 0) .int = BitVec.intMin 32 := by
  refine ⟨_, rfl, ?_, ?_⟩ <;> decide

end MinINode

end HotSpot.Opto
