import HotSpot.Lib.SignedWord
import HotSpot.Opto.Value

/-! # Range inference is sound

Whatever values the inputs of a node have within their types, the value of the node
is within the type that `Value` returns.
-/

namespace HotSpot.Opto

open TypeInteger

section Contains

variable {w : Nat}

@[simp] theorem contains_make {lo hi x : BitVec w} {widen : Nat} :
    (make lo hi widen).Contains x ↔ lo.toInt ≤ x.toInt ∧ x.toInt ≤ hi.toInt := by
  rw [contains_iff, make_lo, make_hi]

@[simp] theorem contains_con {c x : BitVec w} : (con c).Contains x ↔ x = c := by
  rw [contains_iff, ← BitVec.toInt_inj]
  change c.toInt ≤ x.toInt ∧ x.toInt ≤ c.toInt ↔ _
  omega

theorem contains_full (hw : 0 < w) (x : BitVec w) : (full w).Contains x := by
  have hmin := BitVec.toInt_intMin_of_pos hw
  have hmax := BitVec.toInt_intMax (w := w)
  have hlo := BitVec.le_toInt x
  have hhi := BitVec.toInt_lt (x := x)
  rw [full, contains_make]
  omega

theorem isCon_iff {t : TypeInteger w} : t.isCon = true ↔ t.lo = t.hi := by
  simp [isCon]

theorem contains_intMin_intMax (hw : 0 < w) (widen : Nat) (x : BitVec w) :
    (make (BitVec.intMin w) (BitVec.intMax w) widen).Contains x := by
  have h := contains_full hw x
  rwa [full, contains_make, ← contains_make] at h

end Contains

/-! ## Ranges -/

section Ring

variable {w : Nat} {r0 r1 : TypeInteger w} {x y : BitVec w}

theorem addRing_sound (hw : 0 < w) (h0 : r0.Contains x) (h1 : r1.Contains y) :
    (addRing r0 r1).Contains (x + y) := by
  unfold addRing
  dsimp only
  split
  next hcon =>
    rw [Bool.and_eq_true] at hcon
    rw [contains_make, h0.eq_of_isCon hcon.1, h1.eq_of_isCon hcon.2, ← isCon_iff.mp hcon.1,
      ← isCon_iff.mp hcon.2]
    exact ⟨le_rfl, le_rfl⟩
  next =>
    rw [contains_iff] at h0 h1
    split
    next => exact contains_intMin_intMax hw _ _
    next hunder =>
      split
      next => exact contains_intMin_intMax hw _ _
      next hover =>
        split
        next => exact contains_intMin_intMax hw _ _
        next =>
          simp only [Bool.and_eq_true, BitVec.slt_iff_toInt_lt, BitVec.sle_iff_toInt_le,
            BitVec.toInt_zero, toInt_and_lt_zero_iff, toInt_not_or_lt_zero_iff hw]
            at hunder hover
          rw [contains_make]
          -- Neither end has wrapped around, so that no sum in between has.
          have hlo := toInt_add_cases hw r0.lo r1.lo
          have hhi := toInt_add_cases hw r0.hi r1.hi
          have hsum := toInt_add_cases hw x y
          have := BitVec.le_toInt r0.lo
          have := BitVec.le_toInt r1.lo
          have := BitVec.toInt_lt (x := r0.hi)
          have := BitVec.toInt_lt (x := r1.hi)
          omega

theorem subRing_sound (hw : 0 < w) (h0 : r0.Contains x) (h1 : r1.Contains y) :
    (subRing r0 r1).Contains (x - y) := by
  rw [contains_iff] at h0 h1
  unfold subRing
  dsimp only
  split
  next hsigns =>
    simp only [Bool.and_eq_true, Bool.or_eq_true, BitVec.sle_iff_toInt_le, BitVec.toInt_zero,
      zero_le_toInt_xor_iff] at hsigns
    rw [contains_make]
    have hlo := toInt_sub_cases hw r0.lo r1.hi
    have hhi := toInt_sub_cases hw r0.hi r1.lo
    have hdiff := toInt_sub_cases hw x y
    have := BitVec.le_toInt r0.lo
    have := BitVec.le_toInt r1.lo
    have := BitVec.toInt_lt (x := r0.hi)
    have := BitVec.toInt_lt (x := r1.hi)
    omega
  next => exact contains_full hw _

/-- A product lies between the products of the ends. -/
theorem mul_between {a b c d m x y : Int} (hax : a ≤ x) (hxb : x ≤ b) (hcy : c ≤ y) (hyd : y ≤ d) :
    (m ≤ a * c → m ≤ a * d → m ≤ b * c → m ≤ b * d → m ≤ x * y) ∧
    (a * c ≤ m → a * d ≤ m → b * c ≤ m → b * d ≤ m → x * y ≤ m) := by
  constructor
  · intro h1 h2 h3 h4
    rcases le_total 0 y with hy | hy <;> rcases le_total 0 a with ha | ha <;>
      rcases le_total 0 b with hb | hb <;> nlinarith
  · intro h1 h2 h3 h4
    rcases le_total 0 y with hy | hy <;> rcases le_total 0 a with ha | ha <;>
      rcases le_total 0 b with hb | hb <;> nlinarith

/-- If the products of the ends do not wrap around, no product in between does. -/
theorem toInt_mul_between (hw : 0 < w) (h0 : r0.Contains x) (h1 : r1.Contains y)
    (hA : (r0.lo * r1.lo).toInt = r0.lo.toInt * r1.lo.toInt)
    (hB : (r0.lo * r1.hi).toInt = r0.lo.toInt * r1.hi.toInt)
    (hC : (r0.hi * r1.lo).toInt = r0.hi.toInt * r1.lo.toInt)
    (hD : (r0.hi * r1.hi).toInt = r0.hi.toInt * r1.hi.toInt) :
    (x * y).toInt = x.toInt * y.toInt ∧ ∀ m : Int,
      (m ≤ (r0.lo * r1.lo).toInt → m ≤ (r0.lo * r1.hi).toInt → m ≤ (r0.hi * r1.lo).toInt →
        m ≤ (r0.hi * r1.hi).toInt → m ≤ x.toInt * y.toInt) ∧
      ((r0.lo * r1.lo).toInt ≤ m → (r0.lo * r1.hi).toInt ≤ m → (r0.hi * r1.lo).toInt ≤ m →
        (r0.hi * r1.hi).toInt ≤ m → x.toInt * y.toInt ≤ m) := by
  rw [contains_iff] at h0 h1
  have hbetween : ∀ m : Int,
      (m ≤ (r0.lo * r1.lo).toInt → m ≤ (r0.lo * r1.hi).toInt → m ≤ (r0.hi * r1.lo).toInt →
        m ≤ (r0.hi * r1.hi).toInt → m ≤ x.toInt * y.toInt) ∧
      ((r0.lo * r1.lo).toInt ≤ m → (r0.lo * r1.hi).toInt ≤ m → (r0.hi * r1.lo).toInt ≤ m →
        (r0.hi * r1.hi).toInt ≤ m → x.toInt * y.toInt ≤ m) := by
    intro m
    rw [hA, hB, hC, hD]
    exact mul_between h0.1 h0.2 h1.1 h1.2
  refine ⟨?_, hbetween⟩
  apply toInt_mul_eq_of_bounds hw
  · apply (hbetween _).1 <;> apply BitVec.le_toInt
  · apply Int.lt_of_le_sub_one
    apply (hbetween _).2 <;> apply Int.le_sub_one_of_lt <;> apply BitVec.toInt_lt

theorem mulRing_sound (hw : 0 < w) (h0 : r0.Contains x) (h1 : r1.Contains y) :
    (mulRing r0 r1).Contains (x * y) := by
  unfold mulRing
  dsimp only
  split
  next => exact contains_full hw _
  next hfits =>
    simp only [mulOverflows, Bool.or_eq_true, decide_eq_true_eq, not_or, ne_eq, not_not] at hfits
    obtain ⟨⟨⟨hA, hB⟩, hC⟩, hD⟩ := hfits
    obtain ⟨hproduct, hbetween⟩ := toInt_mul_between hw h0 h1 hA hB hC hD
    split <;> rw [contains_make, hproduct, toInt_ite_slt, toInt_ite_slt, toInt_ite_slt_swap,
      toInt_ite_slt_swap]
    next hlt =>
      rw [BitVec.slt_iff_toInt_lt] at hlt
      constructor
      · apply (hbetween _).1 <;> omega
      · apply (hbetween _).2 <;> omega
    next hge =>
      rw [BitVec.slt_iff_toInt_lt] at hge
      constructor
      · apply (hbetween _).1 <;> omega
      · apply (hbetween _).2 <;> omega

/-! ## Logical operations -/

theorem toInt_and_bounds {c : BitVec w} (hc : 0 ≤ c.toInt) (x : BitVec w) :
    0 ≤ (x &&& c).toInt ∧ (x &&& c).toInt ≤ c.toInt := by
  have hnonneg : 0 ≤ (x &&& c).toInt := by
    rw [← not_lt, toInt_and_lt_zero_iff]
    omega
  refine ⟨hnonneg, ?_⟩
  rw [toInt_eq_toNat_of_nonneg hnonneg, toInt_eq_toNat_of_nonneg hc, BitVec.toNat_and]
  exact_mod_cast Nat.and_le_right

theorem andRing_sound (hw : 0 < w) {rest : TypeInteger w} (h0 : r0.Contains x) (h1 : r1.Contains y)
    (hrest : rest.Contains (x &&& y)) : (andRing r0 r1 rest).Contains (x &&& y) := by
  unfold andRing
  dsimp only
  split
  next => exact contains_full hw _
  next =>
    split
    next hcon =>
      rw [Bool.and_eq_true] at hcon
      rw [contains_con, h0.eq_of_isCon hcon.1, h1.eq_of_isCon hcon.2]
    next =>
      split
      next hcon =>
        rw [Bool.and_eq_true, BitVec.slt_iff_toInt_lt, BitVec.toInt_zero] at hcon
        rw [contains_make, BitVec.toInt_zero, h0.eq_of_isCon hcon.1, BitVec.and_comm]
        exact toInt_and_bounds hcon.2.le y
      next =>
        split
        next hcon =>
          rw [Bool.and_eq_true, BitVec.slt_iff_toInt_lt, BitVec.toInt_zero] at hcon
          rw [contains_make, BitVec.toInt_zero, h1.eq_of_isCon hcon.1]
          exact toInt_and_bounds hcon.2.le x
        next => exact hrest

theorem bitRing_sound (hw : 0 < w) {op : BitVec w → BitVec w → BitVec w} (h0 : r0.Contains x)
    (h1 : r1.Contains y) : (bitRing r0 r1 op).Contains (op x y) := by
  unfold bitRing
  split
  next hcon =>
    rw [Bool.and_eq_true] at hcon
    rw [contains_con, h0.eq_of_isCon hcon.1, h1.eq_of_isCon hcon.2]
  next => exact contains_full hw _

theorem contains_bool_iff {x : BitVec 32} : bool.Contains x ↔ 0 ≤ x.toInt ∧ x.toInt ≤ 1 :=
  contains_make

/-- The two values of a boolean. -/
theorem contains_bool {x : BitVec 32} : bool.Contains x ↔ x = 0 ∨ x = 1 := by
  rw [contains_bool_iff, ← BitVec.toInt_inj, ← BitVec.toInt_inj]
  change 0 ≤ x.toInt ∧ x.toInt ≤ 1 ↔ x.toInt = 0 ∨ x.toInt = 1
  omega

/-! ## Quotients and remainders -/

/-- The quotient is no larger than the dividend. -/
theorem tdiv_bounds (a b : Int) : -(a.natAbs : Int) ≤ a.tdiv b ∧ a.tdiv b ≤ a.natAbs := by
  have h := Int.natAbs_tdiv_le_natAbs a b
  omega

/-- Half of the smallest number is the largest quotient of it. -/
theorem tdiv_le_half {a b : Int} (ha : a < 0) (hb : b ≠ -1) : a.tdiv b ≤ -a / 2 := by
  have hneg : a.tdiv b = -(-a).tdiv b := by rw [Int.neg_tdiv, Int.neg_neg]
  rcases Int.lt_or_le b 0 with hlt | hge
  · have hquot : a.tdiv b = -a / -b := by
      rw [hneg, ← Int.tdiv_neg, Int.tdiv_eq_ediv_of_nonneg (by omega)]
    have hle := Int.ediv_mul_le (-a) (show -b ≠ 0 by omega)
    have hpos := Int.ediv_nonneg (show 0 ≤ -a by omega) (show 0 ≤ -b by omega)
    have htwice := Int.mul_le_mul_of_nonneg_left (show 2 ≤ -b by omega) hpos
    rw [hquot, Int.le_ediv_iff_mul_le (by decide)]
    omega
  · have := Int.tdiv_nonneg (show 0 ≤ -a by omega) hge
    omega

/-- The largest quotient of the smallest number. -/
theorem toInt_intMax_sdiv_two_add_one (hw : 2 < w) :
    ((BitVec.intMax w).sdiv 2#w + 1#w).toInt = 2 ^ (w - 1) / 2 := by
  have hquarter : (2 : Int) ^ (w - 1) = 2 * (2 * 2 ^ (w - 3)) := by
    rw [← Int.pow_succ', ← Int.pow_succ']
    congr 1
    omega
  have hpos : (0 : Int) < 2 ^ (w - 3) := by positivity
  have htwo : (2#w).toInt = 2 := by
    rw [← BitVec.ofInt_natCast]
    exact BitVec.toInt_ofInt_eq_self (by omega) (by push_cast; omega) (by push_cast; omega)
  have hone : BitVec.ofInt w 1 = 1#w := BitVec.ofInt_natCast w 1
  rw [sdiv_eq_ofInt, htwo, BitVec.toInt_intMax, ← hone, ← BitVec.ofInt_add,
    Int.tdiv_eq_ediv_of_nonneg (by omega)]
  rw [BitVec.toInt_ofInt_eq_self (by omega) (by omega) (by omega)]
  omega

/-- A quotient wraps around only if it is that of the smallest number by -1. -/
theorem toInt_sdiv_eq (h : x ≠ BitVec.intMin w ∨ y ≠ -1#w) :
    (x.sdiv y).toInt = x.toInt.tdiv y.toInt :=
  BitVec.toInt_sdiv_of_ne_or_ne x y h

theorem divRing_sound (hw : 2 < w) (h0 : r0.Contains x) (h1 : r1.Contains y) :
    (divRing r0 r1).Contains (x.sdiv y) := by
  have hmin := BitVec.toInt_intMin_of_pos (show 0 < w by omega)
  have hneg := toInt_neg_one (show 0 < w by omega)
  have hxmin := BitVec.le_toInt x
  unfold divRing
  dsimp only
  split
  next hcon =>
    rw [Bool.and_eq_true, decide_eq_true_eq] at hcon
    have hy := h1.eq_of_isCon hcon.1
    have hne : r1.lo.toInt ≠ 0 := by
      rw [ne_eq, ← BitVec.toInt_zero (w := w), BitVec.toInt_inj]
      exact hcon.2
    rw [hy]
    split
    next hpos =>
      rw [BitVec.sle_iff_toInt_le, BitVec.toInt_zero] at hpos
      have hone : r1.lo ≠ -1#w := by
        intro h
        rw [h, hneg] at hpos
        omega
      rw [contains_iff] at h0
      rw [contains_make, toInt_sdiv_eq (.inr hone), toInt_sdiv_eq (.inr hone),
        toInt_sdiv_eq (.inr hone)]
      exact ⟨Int.tdiv_le_tdiv (by omega) h0.1, Int.tdiv_le_tdiv (by omega) h0.2⟩
    next hlt =>
      rw [BitVec.sle_iff_toInt_le, BitVec.toInt_zero] at hlt
      split
      next hwrap =>
        split
        next hhi =>
          have hx : x = BitVec.intMin w := by
            apply BitVec.eq_of_toInt_eq
            rw [contains_iff, hhi] at h0
            omega
          rw [hx, hwrap.1, contains_make, BitVec.intMin_sdiv_neg_one]
          exact ⟨le_rfl, le_rfl⟩
        next => exact contains_intMin_intMax (by omega) _ _
      next hwrap =>
        rw [contains_iff] at h0
        have hexact : ∀ z : BitVec w, r0.lo.toInt ≤ z.toInt →
            (z.sdiv r1.lo).toInt = -z.toInt.tdiv (-r1.lo.toInt) := by
          intro z hz
          rw [toInt_sdiv_eq, Int.tdiv_neg, Int.neg_neg]
          by_contra hboth
          rw [not_or, not_not, not_not] at hboth
          apply hwrap
          refine ⟨hboth.2, BitVec.eq_of_toInt_eq ?_⟩
          have := BitVec.le_toInt r0.lo
          rw [hboth.1] at hz
          omega
        rw [contains_make, hexact r0.lo le_rfl, hexact x h0.1, hexact r0.hi (h0.1.trans h0.2)]
        have hlo := Int.tdiv_le_tdiv (show 0 < -r1.lo.toInt by omega) h0.1
        have hhi := Int.tdiv_le_tdiv (show 0 < -r1.lo.toInt by omega) h0.2
        omega
  next =>
    split
    next hcon =>
      rw [h0.eq_of_isCon hcon]
      split
      next hlt =>
        rw [BitVec.slt_iff_toInt_lt, BitVec.toInt_zero] at hlt
        split
        next hleast =>
          rw [contains_make, toInt_intMax_sdiv_two_add_one hw, hleast]
          have hpos : (0 : Int) < 2 ^ (w - 1) := by positivity
          by_cases hy : y = -1#w
          · rw [hy, BitVec.intMin_sdiv_neg_one, hmin]
            omega
          · have hy' : y.toInt ≠ -1 := by
              rwa [ne_eq, ← hneg, BitVec.toInt_inj]
            have hle := tdiv_le_half (show (BitVec.intMin w).toInt < 0 by omega) hy'
            have hbounds := tdiv_bounds (BitVec.intMin w).toInt y.toInt
            rw [toInt_sdiv_eq (.inr hy)]
            omega
        next hleast =>
          have := tdiv_bounds r0.lo.toInt y.toInt
          rw [contains_make, toInt_sdiv_eq (.inl hleast), BitVec.toInt_neg_of_ne_intMin hleast]
          omega
      next hge =>
        rw [BitVec.slt_iff_toInt_lt, BitVec.toInt_zero] at hge
        have hleast : r0.lo ≠ BitVec.intMin w := by
          intro h
          rw [h, hmin] at hge
          have : (0 : Int) < 2 ^ (w - 1) := by positivity
          omega
        have := tdiv_bounds r0.lo.toInt y.toInt
        rw [contains_make, toInt_sdiv_eq (.inl hleast), BitVec.toInt_neg_of_ne_intMin hleast]
        omega
    next => exact contains_full (by omega) _

theorem modRing_sound (hw : 0 < w) (h0 : r0.Contains x) (h1 : r1.Contains y) (hy : y ≠ 0#w) :
    (modRing r0 r1).Contains (x.srem y) := by
  unfold modRing
  split
  next =>
    split
    next hnonneg =>
      rw [Bool.and_eq_true, BitVec.sle_iff_toInt_le, BitVec.sle_iff_toInt_le, BitVec.toInt_zero]
        at hnonneg
      rw [contains_iff] at h0
      have hlt := BitVec.toInt_lt (x := x.srem y)
      rw [pos, contains_make, BitVec.toInt_zero, BitVec.toInt_intMax, BitVec.toInt_srem] at *
      exact ⟨Int.tmod_nonneg _ (by omega), by omega⟩
    next => exact contains_full hw _
  next hcon =>
    simp only [Bool.or_eq_true, decide_eq_true_eq, not_or, Bool.not_eq_false] at hcon
    have hx := h0.eq_of_isCon hcon.1
    have hy' := h1.eq_of_isCon hcon.2
    split
    next hzero => exact absurd (hy'.trans hzero) hy
    next =>
      split
      next hmin =>
        rw [zero, contains_con, hy', hmin.2]
        apply BitVec.eq_of_toInt_eq
        rw [BitVec.toInt_srem, BitVec.toInt_zero, toInt_neg_one hw, Int.tmod_neg, Int.tmod_one]
      next => rw [contains_con, hx, hy']

/-! ## Shifts -/

section Shift

variable {k : Nat} {r2 : TypeInt}

/-- If the ends lose no bits, no value in between does. -/
theorem toInt_shiftLeft_between (hk : k < w) (hlo : (r0.lo <<< k).sshiftRight k = r0.lo)
    (hhi : (r0.hi <<< k).sshiftRight k = r0.hi) (h0 : r0.Contains x) :
    (x <<< k).toInt = x.toInt * 2 ^ k := by
  have hpos : (0 : Int) < 2 ^ k := by positivity
  rw [contains_iff] at h0
  have hlo := toInt_shiftLeft_of_sshiftRight_eq hk hlo
  have hhi := toInt_shiftLeft_of_sshiftRight_eq hk hhi
  have hmin := BitVec.le_toInt (r0.lo <<< k)
  have hmax := BitVec.toInt_lt (x := r0.hi <<< k)
  have hlox := Int.mul_le_mul_of_nonneg_right h0.1 hpos.le
  have hxhi := Int.mul_le_mul_of_nonneg_right h0.2 hpos.le
  exact toInt_shiftLeft_of_bounds (by omega) (by omega) (by omega)

theorem lshiftRing_sound (hk : k < w) (h0 : r0.Contains x) :
    (lshiftRing r0 k r2).Contains (x <<< k) := by
  have hpos : (0 : Int) < 2 ^ k := by positivity
  unfold lshiftRing
  split
  next =>
    split
    next hfits =>
      rw [contains_make, toInt_shiftLeft_between hk hfits.1 hfits.2 h0,
        toInt_shiftLeft_of_sshiftRight_eq hk hfits.1, toInt_shiftLeft_of_sshiftRight_eq hk hfits.2]
      rw [contains_iff] at h0
      exact ⟨Int.mul_le_mul_of_nonneg_right h0.1 hpos.le,
        Int.mul_le_mul_of_nonneg_right h0.2 hpos.le⟩
    next => exact contains_full (by omega) _
  next hcon => rw [contains_con, h0.eq_of_isCon (by simpa using hcon)]

theorem rshiftRing_sound (h0 : r0.Contains x) :
    (rshiftRing r0 k r2).Contains (x.sshiftRight k) := by
  have hpos : (0 : Int) < 2 ^ k := by positivity
  rw [contains_iff] at h0
  rw [rshiftRing, contains_make, toInt_sshiftRight_eq, toInt_sshiftRight_eq, toInt_sshiftRight_eq]
  exact ⟨Int.ediv_le_ediv hpos h0.1, Int.ediv_le_ediv hpos h0.2⟩

theorem urshiftRing_sound (hk : 0 < k) (h0 : r0.Contains x) :
    (urshiftRing r0 k r2).Contains (x >>> k) := by
  rw [contains_iff] at h0
  have hmono : ∀ {m n : Nat}, m ≤ n → ((m / 2 ^ k : Nat) : Int) ≤ ((n / 2 ^ k : Nat) : Int) := by
    intro m n hmn
    exact_mod_cast Nat.div_le_div_right hmn
  have hlt := x.isLt
  unfold urshiftRing
  dsimp only
  split
  next hmixed =>
    rw [contains_make, toInt_ite_slt, toInt_ite_slt_swap]
    simp only [toInt_ushiftRight_eq hk]
    have hzero := hmono (show (0#w).toNat ≤ x.toNat by simp)
    have hones :=
      hmono (show x.toNat ≤ (BitVec.allOnes w).toNat by rw [BitVec.toNat_allOnes]; omega)
    omega
  next hsigns =>
    simp only [Bool.and_eq_true, BitVec.sle_iff_toInt_le, BitVec.slt_iff_toInt_lt,
      BitVec.toInt_zero] at hsigns
    rw [contains_make]
    simp only [toInt_ushiftRight_eq hk]
    have hl := BitVec.toInt_eq_toNat_cond r0.lo
    have hh := BitVec.toInt_eq_toNat_cond r0.hi
    have hx := BitVec.toInt_eq_toNat_cond x
    have hllt := r0.lo.isLt
    have hhlt := r0.hi.isLt
    constructor <;> apply hmono
    · split at hl <;> split at hh <;> split at hx <;> omega
    · split at hl <;> split at hh <;> split at hx <;> omega

end Shift

end Ring

section IntRing

variable {r0 r1 : TypeInt} {x y : BitVec 32}

/-- A boolean masks all but the lowest bit. -/
theorem contains_and_bool (h0 : r0.Contains x) (h1 : r1.Contains y) :
    (if r0 = bool ∨ r1 = bool then bool else full 32).Contains (x &&& y) := by
  split
  next hbool =>
    rcases hbool with rfl | rfl
    · rw [contains_bool_iff] at h0 ⊢
      rw [BitVec.and_comm]
      have := toInt_and_bounds h0.1 y
      omega
    · rw [contains_bool_iff] at h1 ⊢
      have := toInt_and_bounds h1.1 x
      omega
  next => exact contains_full (by decide) _

theorem AndINode.mulRing_sound (h0 : r0.Contains x) (h1 : r1.Contains y) :
    (AndINode.mulRing r0 r1).Contains (x &&& y) :=
  andRing_sound (by decide) h0 h1 (contains_and_bool h0 h1)

theorem OrINode.addRing_sound (h0 : r0.Contains x) (h1 : r1.Contains y) :
    (OrINode.addRing r0 r1).Contains (x ||| y) := by
  unfold OrINode.addRing
  split
  next h =>
    obtain ⟨rfl, rfl⟩ := h
    rw [contains_bool] at h0
    rw [one, contains_con] at h1 ⊢
    rcases h0 with rfl | rfl <;> subst h1 <;> decide
  next =>
    split
    next h =>
      obtain ⟨rfl, rfl⟩ := h
      rw [contains_bool] at h0 h1 ⊢
      rcases h0 with rfl | rfl <;> rcases h1 with rfl | rfl <;> decide
    next =>
      split
      next h =>
        obtain ⟨rfl, rfl⟩ := h
        rw [contains_bool] at h1
        rw [one, contains_con] at h0 ⊢
        rcases h1 with rfl | rfl <;> subst h0 <;> decide
      next => exact bitRing_sound (by decide) h0 h1

theorem XorINode.addRing_sound (h0 : r0.Contains x) (h1 : r1.Contains y) :
    (XorINode.addRing r0 r1).Contains (x ^^^ y) := by
  unfold XorINode.addRing
  split
  next h =>
    obtain ⟨rfl, rfl | rfl⟩ := h
    · rw [contains_bool] at h0 ⊢
      rw [one, contains_con] at h1
      rcases h0 with rfl | rfl <;> subst h1 <;> decide
    · rw [contains_bool] at h0 h1 ⊢
      rcases h0 with rfl | rfl <;> rcases h1 with rfl | rfl <;> decide
  next => exact bitRing_sound (by decide) h0 h1

theorem MaxINode.addRing_sound (h0 : r0.Contains x) (h1 : r1.Contains y) :
    (MaxINode.addRing r0 r1).Contains (if x.slt y then y else x) := by
  rw [contains_iff] at h0 h1
  rw [MaxINode.addRing, contains_make, toInt_ite_slt_swap, toInt_ite_slt_swap, toInt_ite_slt_swap]
  omega

theorem MinINode.addRing_sound (h0 : r0.Contains x) (h1 : r1.Contains y) :
    (MinINode.addRing r0 r1).Contains (if x.slt y then x else y) := by
  rw [contains_iff] at h0 h1
  rw [MinINode.addRing, contains_make, toInt_ite_slt, toInt_ite_slt, toInt_ite_slt]
  omega

end IntRing

/-! ## Comparisons -/

section Compare

variable {w : Nat} {r0 r1 : TypeInteger w} {x y : BitVec w}

/-- The three outcomes of a signed comparison. -/
theorem compare_slt_cases (x y : BitVec w) :
    (x.toInt < y.toInt ∧ compare BitVec.slt x y = -1) ∨
    (x.toInt = y.toInt ∧ compare BitVec.slt x y = 0) ∨
    (y.toInt < x.toInt ∧ compare BitVec.slt x y = 1) := by
  unfold compare
  simp only [BitVec.slt_iff_toInt_lt, ← BitVec.toInt_inj]
  split
  · exact .inl ⟨‹_›, rfl⟩
  · split
    · exact .inr (.inl ⟨‹_›, rfl⟩)
    · exact .inr (.inr ⟨by omega, rfl⟩)

/-- The three outcomes of an unsigned comparison. -/
theorem compare_ult_cases (x y : BitVec w) :
    (x.toNat < y.toNat ∧ compare BitVec.ult x y = -1) ∨
    (x.toNat = y.toNat ∧ compare BitVec.ult x y = 0) ∨
    (y.toNat < x.toNat ∧ compare BitVec.ult x y = 1) := by
  unfold compare
  simp only [BitVec.ult_iff_lt, BitVec.lt_def, ← BitVec.toNat_inj]
  split
  · exact .inl ⟨‹_›, rfl⟩
  · split
    · exact .inr (.inl ⟨‹_›, rfl⟩)
    · exact .inr (.inr ⟨by omega, rfl⟩)

/-- Which condition codes a type must contain. -/
theorem contains_of_order {a b : Int} {c : BitVec 32} {t : TypeInt}
    (hcases : (a < b ∧ c = -1) ∨ (a = b ∧ c = 0) ∨ (b < a ∧ c = 1))
    (hlt : a < b → t.Contains (-1)) (heq : a = b → t.Contains 0) (hgt : b < a → t.Contains 1) :
    t.Contains c := by
  rcases hcases with ⟨h, rfl⟩ | ⟨h, rfl⟩ | ⟨h, rfl⟩
  · exact hlt h
  · exact heq h
  · exact hgt h

theorem cmpRing_sound (h0 : r0.Contains x) (h1 : r1.Contains y) :
    (cmpRing r0 r1).Contains (compare BitVec.slt x y) := by
  rw [contains_iff] at h0 h1
  unfold cmpRing
  simp only [BitVec.slt_iff_toInt_lt, Bool.and_eq_true, isCon_iff, ← BitVec.toInt_inj]
  apply contains_of_order (compare_slt_cases x y)
  -- Every branch either allows the outcome or contradicts it.
  all_goals
    intro horder
    split_ifs <;> first | decide | omega

/-- A range whose ends have the same sign is one of unsigned numbers. -/
theorem toNat_between (h0 : r0.Contains x) (hsign : 0 ≤ (r0.lo ^^^ r0.hi).toInt) :
    r0.lo.toNat ≤ x.toNat ∧ x.toNat ≤ r0.hi.toNat := by
  rw [contains_iff] at h0
  rw [zero_le_toInt_xor_iff] at hsign
  have hl := BitVec.toInt_eq_toNat_cond r0.lo
  have hh := BitVec.toInt_eq_toNat_cond r0.hi
  have hx := BitVec.toInt_eq_toNat_cond x
  have := r0.lo.isLt
  have := r0.hi.isLt
  have := x.isLt
  split at hl <;> split at hh <;> split at hx <;> omega

end Compare

section CompareUnsigned

variable {in1 in2 : Node} {r0 r1 : TypeInt} {x y : BitVec 32}

theorem isModBy_uncast (h : isModBy (fun x y => x = y) in1 in2 = true) :
    isModBy (fun x y => x.uncast = y.uncast) in1 in2 = true := by
  unfold isModBy at h ⊢
  split
  next => simpa using congrArg Node.uncast (by simpa using h)
  next hother => simp_all

/-- Two non-negative numbers compare as unsigned ones as they do as signed ones. -/
theorem toNat_lt_of_toInt_lt (hx : 0 ≤ x.toInt) (hlt : x.toInt < y.toInt) : x.toNat < y.toNat := by
  have := toInt_eq_toNat_of_nonneg hx
  have := toInt_eq_toNat_of_nonneg (show 0 ≤ y.toInt by omega)
  omega

/-- `hmod` is what the nodes say about a remainder and its divisor. -/
theorem CmpUNode.sub_sound (h0 : r0.Contains x) (h1 : r1.Contains y)
    (hmod : isModBy (fun x y => x.uncast = y.uncast) in1 in2 = true → 0 ≤ x.toInt → 0 ≤ y.toInt →
      x.toInt < y.toInt) :
    (CmpUNode.sub in1 in2 r0 r1).Contains (compare BitVec.ult x y) := by
  have hcases : ((x.toNat : Int) < y.toNat ∧ compare BitVec.ult x y = -1) ∨
      ((x.toNat : Int) = y.toNat ∧ compare BitVec.ult x y = 0) ∨
      ((y.toNat : Int) < x.toNat ∧ compare BitVec.ult x y = 1) := by
    exact_mod_cast compare_ult_cases x y
  have hx := contains_iff.mp h0
  have hy := contains_iff.mp h1
  -- If the hack applies, the outcome is known.
  have hhack : ((0#32).sle r0.lo && (0#32).sle r1.lo) = true →
      isModBy (fun x y => x.uncast = y.uncast) in1 in2 = true → x.toNat < y.toNat := by
    intro hnonneg hmodBy
    rw [Bool.and_eq_true, BitVec.sle_iff_toInt_le, BitVec.sle_iff_toInt_le, BitVec.toInt_zero]
      at hnonneg
    exact toNat_lt_of_toInt_lt (by omega) (hmod hmodBy (by omega) (by omega))
  have hotherwise : (if (((0#32).sle r0.lo && (0#32).sle r1.lo) &&
      isModBy (fun x y => x.uncast = y.uncast) in1 in2) = true then ccLT else cc).Contains
      (compare BitVec.ult x y) := by
    split
    next hcond =>
      rw [Bool.and_eq_true] at hcond
      have := hhack hcond.1 hcond.2
      apply contains_of_order hcases <;> intro horder <;> first | decide | omega
    next => apply contains_of_order hcases <;> intro horder <;> decide
  unfold CmpUNode.sub
  dsimp only
  split
  next =>
    split
    next hzero =>
      have hx0 : x.toNat = 0 := by
        rw [h0.eq_of_isCon (isCon_iff.mpr (hzero.1.trans hzero.2.symm)), hzero.1]
        rfl
      apply contains_of_order hcases <;> intro horder <;> first | decide | omega
    next =>
      split
      next hzero =>
        have hy0 : y.toNat = 0 := by
          rw [h1.eq_of_isCon (isCon_iff.mpr (hzero.1.trans hzero.2.symm)), hzero.1]
          rfl
        apply contains_of_order hcases <;> intro horder <;> first | decide | omega
      next => exact hotherwise
  next hsigns =>
    simp only [Bool.or_eq_true, BitVec.slt_iff_toInt_lt, BitVec.toInt_zero, not_or, not_lt]
      at hsigns
    have hx' := toNat_between h0 hsigns.1
    have hy' := toNat_between h1 hsigns.2
    simp only [BitVec.ult_iff_lt, BitVec.ule_iff_le, BitVec.lt_def, BitVec.le_def,
      ← BitVec.toNat_inj]
    split
    next => apply contains_of_order hcases <;> intro horder <;> first | decide | omega
    next =>
      split
      next => apply contains_of_order hcases <;> intro horder <;> first | decide | omega
      next =>
        split
        next => apply contains_of_order hcases <;> intro horder <;> first | decide | omega
        next =>
          split
          next => apply contains_of_order hcases <;> intro horder <;> first | decide | omega
          next =>
            split
            next =>
              split
              next hcond =>
                rw [Bool.and_eq_true] at hcond
                have := hhack hcond.1 (isModBy_uncast hcond.2)
                apply contains_of_order hcases <;> intro horder <;> first | decide | omega
              next => apply contains_of_order hcases <;> intro horder <;> first | decide | omega
            next => exact hotherwise

end CompareUnsigned

/-! ## Value -/

/-- An integer type that contains the value. -/
def Ty.HasValue (ty : Ty) (s : Size) (v : BitVec s.bits) : Prop :=
  ∃ t, ty = .integer s t ∧ t.Contains v

@[simp] theorem hasValue_integer {s : Size} {t : TypeInteger s.bits} {v : BitVec s.bits} :
    (Ty.integer s t).HasValue s v ↔ t.Contains v := by
  constructor
  · rintro ⟨t', heq, h⟩
    obtain rfl : t = t' := by simpa using heq
    exact h
  · intro h
    exact ⟨t, rfl, h⟩

/-- A type that is as high as a constant has its value only. -/
theorem eq_of_higherEqual {w : Nat} {t : TypeInteger w} {c x : BitVec w} (h : t.Contains x)
    (hhigher : t.higherEqual (con c) = true) : x = c := by
  have hmeet : t.meet (con c) = con c := by simpa [higherEqual] using hhigher
  have hlo : (t.meet (con c)).lo.toInt = c.toInt := by rw [hmeet]; rfl
  have hhi : (t.meet (con c)).hi.toInt = c.toInt := by rw [hmeet]; rfl
  rw [contains_iff] at h
  change (if t.lo.slt c then t.lo else c).toInt = _ at hlo
  change (if c.slt t.hi then t.hi else c).toInt = _ at hhi
  rw [toInt_ite_slt] at hlo
  rw [toInt_ite_slt_swap] at hhi
  apply BitVec.eq_of_toInt_eq
  omega

section Value

variable {s : Size} {r0 r1 : TypeInteger s.bits} {x y : BitVec s.bits}

theorem AddNode.value_sound {c : BitVec s.bits} {f : BitVec s.bits → BitVec s.bits → BitVec s.bits}
    {ring : TypeInteger s.bits → TypeInteger s.bits → TypeInteger s.bits} (hleft : f c y = y)
    (hright : f x c = x) (hring : (ring r0 r1).Contains (f x y)) (h0 : r0.Contains x)
    (h1 : r1.Contains y) :
    (AddNode.value s (con c) ring (.integer s r0) (.integer s r1)).HasValue s (f x y) := by
  have hbits : 0 < s.bits := by cases s <;> decide
  unfold AddNode.value
  simp only [reduceCtorEq, or_self, if_false, or_false, Ty.higherEqual_integer, withRanges,
    Ty.isa_integer]
  split
  next => exact hasValue_integer.mpr (contains_full hbits _)
  next =>
    split
    next hhigher => rw [eq_of_higherEqual h0 hhigher, hleft, hasValue_integer]; exact h1
    next =>
      split
      next hhigher => rw [eq_of_higherEqual h1 hhigher, hright, hasValue_integer]; exact h0
      next => exact hasValue_integer.mpr hring

theorem SubNode.value_sound {sOut : Size} {in1 in2 : Node} {c bot : TypeInteger sOut.bits}
    {v : BitVec sOut.bits}
    {sub : TypeInteger s.bits → TypeInteger s.bits → TypeInteger sOut.bits}
    (hsame : in1.uncast = in2.uncast → c.Contains v) (hsub : (sub r0 r1).Contains v) :
    (SubNode.value s sOut c bot in1 in2 sub (.integer s r0) (.integer s r1)).HasValue sOut v := by
  unfold SubNode.value
  simp only [reduceCtorEq, or_self, if_false, withRanges, Ty.isa_integer]
  split
  next heq => exact hasValue_integer.mpr (hsame heq)
  next => exact hasValue_integer.mpr hsub

theorem MulNode.value_sound {f : BitVec s.bits → BitVec s.bits → BitVec s.bits}
    {ring : TypeInteger s.bits → TypeInteger s.bits → TypeInteger s.bits}
    (hleft : f 0#s.bits y = 0#s.bits) (hright : f x 0#s.bits = 0#s.bits)
    (hring : (ring r0 r1).Contains (f x y)) (h0 : r0.Contains x) (h1 : r1.Contains y) :
    (MulNode.value s ring (.integer s r0) (.integer s r1)).HasValue s (f x y) := by
  unfold MulNode.value
  simp only [reduceCtorEq, or_self, if_false, Ty.higherEqual_integer, withRanges, Ty.isa_integer]
  split
  next hhigher =>
    rw [hasValue_integer, zero, contains_con]
    rcases hhigher with hhigher | hhigher
    · rw [eq_of_higherEqual h0 hhigher, hleft]
    · rw [eq_of_higherEqual h1 hhigher, hright]
  next => exact hasValue_integer.mpr hring

theorem divValue_sound {in1 in2 : Node} (hsame : in1 = in2 → x = y) (hy : y ≠ 0#s.bits)
    (h0 : r0.Contains x) (h1 : r1.Contains y) :
    (divValue s in1 in2 (.integer s r0) (.integer s r1)).HasValue s (x.sdiv y) := by
  have hbits : 2 < s.bits := by cases s <;> decide
  unfold divValue
  simp only [reduceCtorEq, or_self, if_false, or_false, withRanges, Ty.isa_integer]
  split
  next heq =>
    rw [hasValue_integer, one, contains_con, hsame heq, BitVec.sdiv_self]
    simp [hy]
  next =>
    split
    next => exact hasValue_integer.mpr (contains_full (by omega) _)
    next => exact hasValue_integer.mpr (divRing_sound hbits h0 h1)

theorem modValue_sound {in1 in2 : Node} (hsame : in1 = in2 → x = y) (hy : y ≠ 0#s.bits)
    (h0 : r0.Contains x) (h1 : r1.Contains y) :
    (modValue s in1 in2 (.integer s r0) (.integer s r1)).HasValue s (x.srem y) := by
  have hbits : 0 < s.bits := by cases s <;> decide
  unfold modValue
  simp only [reduceCtorEq, or_self, if_false, or_false, withRanges, Ty.isa_integer]
  split
  next hzero =>
    obtain rfl : r0 = zero s.bits := by simpa using hzero
    rw [zero, contains_con] at h0
    rw [hasValue_integer, zero, contains_con, h0, BitVec.zero_srem]
  next =>
    split
    next heq => rw [hasValue_integer, zero, contains_con, hsame heq, BitVec.srem_self]
    next =>
      split
      next => exact hasValue_integer.mpr (contains_full hbits _)
      next => exact hasValue_integer.mpr (modRing_sound hbits h0 h1 hy)

theorem shiftValue_sound {f : BitVec s.bits → Nat → BitVec s.bits} {g : Ty → Bool}
    {shifted : TypeInteger s.bits → Nat → TypeInt → TypeInteger s.bits} {r2 : TypeInt}
    {count : BitVec 32} (hzero : ∀ k, f 0#s.bits k = 0#s.bits) (hid : f x 0 = x)
    (hshifted : ∀ k, 0 < k → k < s.bits → (shifted r0 k r2).Contains (f x k))
    (h0 : r0.Contains x) (h2 : r2.Contains count) :
    (shiftValue s g shifted (.integer s r0) (.integer .int r2)).HasValue s
      (f x (shiftCount s.bits count)) := by
  have hbits : 0 < s.bits := by cases s <;> decide
  unfold shiftValue
  simp only [reduceCtorEq, or_self, if_false, or_false, withRanges, Ty.isa_integer]
  split
  next heq =>
    obtain rfl : r0 = zero s.bits := by simpa using heq
    rw [zero, contains_con] at h0
    rw [hasValue_integer, zero, contains_con, h0, hzero]
  next =>
    split
    next heq =>
      obtain rfl : r2 = zero 32 := by simpa using heq
      rw [zero, contains_con] at h2
      rw [hasValue_integer, h2, show shiftCount s.bits 0#32 = 0 by simp [shiftCount], hid]
      exact h0
    next =>
      split
      next => exact hasValue_integer.mpr (contains_full hbits _)
      next =>
        split
        next => exact hasValue_integer.mpr (contains_full hbits _)
        next hcon =>
          have hcount := h2.eq_of_isCon (by simpa using hcon)
          split
          next hmultiple =>
            rw [hasValue_integer, hcount, hmultiple, hid]
            exact h0
          next hne =>
            rw [hasValue_integer, hcount]
            exact hshifted _ (by omega) (Nat.mod_lt _ hbits)

end Value

section MinMax

variable {r0 r1 : TypeInt} {x y : BitVec 32}

/-- The additive identity of `MinI`. -/
theorem MinINode.id_left (y : BitVec 32) :
    (if (BitVec.intMax 32).slt y then BitVec.intMax 32 else y) = y := by
  have hlt := BitVec.toInt_lt (x := y)
  apply if_neg
  rw [BitVec.slt_iff_toInt_lt, BitVec.toInt_intMax]
  omega

theorem MinINode.id_right (x : BitVec 32) :
    (if x.slt (BitVec.intMax 32) then x else BitVec.intMax 32) = x := by
  have hlt := BitVec.toInt_lt (x := x)
  apply BitVec.eq_of_toInt_eq
  rw [toInt_ite_slt, BitVec.toInt_intMax]
  omega

/-- The additive identity of `MaxI`. -/
theorem MaxINode.id_left (y : BitVec 32) :
    (if (BitVec.intMin 32).slt y then y else BitVec.intMin 32) = y := by
  have hle := BitVec.le_toInt y
  apply BitVec.eq_of_toInt_eq
  rw [toInt_ite_slt_swap, BitVec.toInt_intMin_of_pos (by decide)]
  omega

theorem MaxINode.id_right (x : BitVec 32) :
    (if x.slt (BitVec.intMin 32) then BitVec.intMin 32 else x) = x := by
  have hle := BitVec.le_toInt x
  apply if_neg
  rw [BitVec.slt_iff_toInt_lt, BitVec.toInt_intMin_of_pos (by decide)]
  omega

theorem MinINode.value_sound (h0 : r0.Contains x) (h1 : r1.Contains y) :
    (AddNode.value .int (con (BitVec.intMax 32)) MinINode.addRing (.integer .int r0)
      (.integer .int r1)).HasValue .int (if x.slt y then x else y) :=
  AddNode.value_sound (f := fun x y => if x.slt y then x else y) (MinINode.id_left y)
    (MinINode.id_right x) (MinINode.addRing_sound h0 h1) h0 h1

theorem MaxINode.value_sound (h0 : r0.Contains x) (h1 : r1.Contains y) :
    (AddNode.value .int (con (BitVec.intMin 32)) MaxINode.addRing (.integer .int r0)
      (.integer .int r1)).HasValue .int (if x.slt y then y else x) :=
  AddNode.value_sound (f := fun x y => if x.slt y then y else x) (MaxINode.id_left y)
    (MaxINode.id_right x) (MaxINode.addRing_sound h0 h1) h0 h1

end MinMax

/-- The size of the first input. -/
def BinOp.in1Size : BinOp → Size
  | arith s _ => s
  | cmp s => s
  | mulHiL => .long
  | _ => .int

/-- The size of the second input; a shift count is an int. -/
def BinOp.in2Size : BinOp → Size
  | arith _ .lshift => .int
  | arith _ .rshift => .int
  | arith _ .urshift => .int
  | op => op.in1Size

def BinOp.outSize : BinOp → Size
  | arith s _ => s
  | mulHiL => .long
  | _ => .int

/-- What the hash index check relies on: a remainder that does not throw is smaller than
its divisor if both are not negative. -/
theorem isModBy_lt {env : Env} {in1 in2 : Node}
    (hmod : isModBy (fun x y => x.uncast = y.uncast) in1 in2 = true) (hdefined : in1.Defined env)
    (hx : 0 ≤ (in1.evalAt env .int).toInt) (hy : 0 ≤ (in2.evalAt env .int).toInt) :
    (in1.evalAt env .int).toInt < (in2.evalAt env .int).toInt := by
  unfold isModBy at hmod
  split at hmod
  next idx x y =>
    have heq : y.evalAt env .int = in2.evalAt env .int := by
      have huncast : y.uncast = in2.uncast := by simpa using hmod
      rw [Node.evalAt, ← Node.eval_uncast, huncast, Node.eval_uncast]
      rfl
    obtain ⟨-, -, hne⟩ := hdefined
    rw [← heq] at hy ⊢
    have hpos : 0 < (y.evalAt env .int).toInt := by
      have : (y.evalAt env .int).toInt ≠ 0 := by
        rw [ne_eq, ← BitVec.toInt_zero (w := 32), BitVec.toInt_inj]
        exact hne
      omega
    rw [evalAt_arith, ArithOp.apply, BitVec.toInt_srem]
    exact Int.tmod_lt_of_pos _ hpos
  next => cases hmod

/-- Range inference is sound: for every operation, whatever values the inputs have within
their types, the value of a node that does not throw is within the type `Value` returns. -/
theorem rangeInference_sound {env : Env} {op : BinOp} {idx : Nat} {in1 in2 : Node}
    {t1 : TypeInteger op.in1Size.bits} {t2 : TypeInteger op.in2Size.bits}
    (h1 : t1.Contains (in1.evalAt env op.in1Size)) (h2 : t2.Contains (in2.evalAt env op.in2Size))
    (hdefined : (Node.bin idx op in1 in2).Defined env) :
    (op.value in1 in2 (.integer op.in1Size t1) (.integer op.in2Size t2)).HasValue op.outSize
      ((Node.bin idx op in1 in2).evalAt env op.outSize) := by
  have hsame : ∀ s, in1 = in2 → in1.evalAt env s = in2.evalAt env s := by
    rintro s rfl
    rfl
  have huncast : ∀ s, in1.uncast = in2.uncast → in1.evalAt env s = in2.evalAt env s := by
    intro s heq
    rw [Node.evalAt, ← Node.eval_uncast, heq, Node.eval_uncast]
    rfl
  -- A node that compares the same value is zero.
  have hequal : ∀ {w : Nat} (lt : BitVec w → BitVec w → Bool) (x y : BitVec w),
      lt y y = false → x = y → (zero 32).Contains (compare lt x y) := by
    rintro w lt x y hlt rfl
    rw [zero, contains_con, compare, if_neg (by simp [hlt]), if_pos rfl]
    rfl
  cases op with
  | arith s op =>
    have hbits : 0 < s.bits := by cases s <;> decide
    have heval : (Node.bin idx (.arith s op) in1 in2).evalAt env (BinOp.arith s op).outSize =
        op.apply (in1.evalAt env s) (in2.evalAt env s) (in2.evalAt env .int) :=
      evalAt_arith env s in1 in2 idx op
    rw [heval]
    cases op with
    | add =>
      exact AddNode.value_sound (f := (· + ·)) (BitVec.zero_add _) (BitVec.add_zero _)
        (addRing_sound hbits h1 h2) h1 h2
    | sub =>
      refine SubNode.value_sound ?_ (subRing_sound hbits h1 h2)
      intro heq
      change (zero s.bits).Contains (in1.evalAt env s - in2.evalAt env s)
      rw [zero, contains_con, huncast s heq, BitVec.sub_self]
    | mul =>
      exact MulNode.value_sound (f := (· * ·)) BitVec.zero_mul BitVec.mul_zero
        (mulRing_sound hbits h1 h2) h1 h2
    | div => exact divValue_sound (hsame s) hdefined.2.2 h1 h2
    | mod => exact modValue_sound (hsame s) hdefined.2.2 h1 h2
    | and =>
      refine MulNode.value_sound (f := (· &&& ·)) BitVec.zero_and BitVec.and_zero ?_ h1 h2
      cases s with
      | int => exact AndINode.mulRing_sound h1 h2
      | long => exact andRing_sound hbits h1 h2 (contains_full hbits _)
    | or =>
      refine AddNode.value_sound (f := (· ||| ·)) BitVec.zero_or BitVec.or_zero ?_ h1 h2
      cases s with
      | int => exact OrINode.addRing_sound h1 h2
      | long => exact bitRing_sound hbits h1 h2
    | xor =>
      refine AddNode.value_sound (f := (· ^^^ ·)) BitVec.zero_xor BitVec.xor_zero ?_ h1 h2
      cases s with
      | int => exact XorINode.addRing_sound h1 h2
      | long => exact bitRing_sound hbits h1 h2
    | lshift =>
      exact shiftValue_sound (f := (· <<< ·)) (g := fun t => t = .integer s (full s.bits))
        BitVec.zero_shiftLeft (BitVec.shiftLeft_zero _) (fun _ _ hk => lshiftRing_sound hk h1)
        h1 h2
    | rshift =>
      exact shiftValue_sound (f := BitVec.sshiftRight) (g := fun _ => false)
        (fun _ => BitVec.zero_sshiftRight) BitVec.sshiftRight_zero
        (fun _ _ _ => rshiftRing_sound h1) h1 h2
    | urshift =>
      exact shiftValue_sound (f := (· >>> ·)) (g := fun _ => false)
        (fun _ => BitVec.zero_ushiftRight) (BitVec.ushiftRight_zero _)
        (fun _ hk _ => urshiftRing_sound hk h1) h1 h2
  | cmp s =>
    refine SubNode.value_sound ?_ (cmpRing_sound h1 h2)
    intro heq
    exact hequal _ _ _ (by simp [BitVec.slt]) (huncast s heq)
  | cmpU =>
    refine SubNode.value_sound ?_ (CmpUNode.sub_sound h1 h2 fun hmod hx hy =>
      isModBy_lt hmod hdefined.1 hx hy)
    intro heq
    exact hequal _ _ _ (by simp [BitVec.ult]) (huncast .int heq)
  | minI => exact MinINode.value_sound h1 h2
  | maxI => exact MaxINode.value_sound h1 h2
  | mulHiL => exact hasValue_integer.mpr (contains_full (by decide) _)

/-- The smallest int divided by -1, which wraps around. -/
theorem rangeInference_sound_div_wraps :
    ((BinOp.arith .int .div).value (.leaf 0) (.con .int (-1))
      (.integer .int (make (BitVec.intMin 32) (-10) widenMin)) (.integer .int (con (-1)))).HasValue
      .int ((Node.bin 2 (.arith .int .div) (.leaf 0) (.con .int (-1))).evalAt
        (constantEnv (BitVec.intMin 32) 0) .int) :=
  rangeInference_sound (show (make (BitVec.intMin 32) (-10) widenMin).Contains (BitVec.intMin 32) by
    decide) (show (con (-1 : BitVec 32)).Contains (-1) by decide) ⟨trivial, trivial, by decide⟩

end HotSpot.Opto
