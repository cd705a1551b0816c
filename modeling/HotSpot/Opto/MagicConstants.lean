import HotSpot.Lib.MagicDivision

/-! # The constants of a division by multiplication

`magic_int_divide_constants` and `magic_long_divide_constants` of `divnode.cpp`.
They differ in the width only, on which `magicDivideConstants` is generic.
-/

namespace HotSpot.Opto

variable {w : Nat}

/-- The variables of the loop that change. -/
structure MagicState (w : Nat) where
  p : Nat
  q1 : BitVec w
  r1 : BitVec w
  q2 : BitVec w
  r2 : BitVec w

namespace MagicState

/-- The body of the loop up to `delta`. -/
def step (ad anc : BitVec w) (s : MagicState w) : MagicState w where
  p := s.p + 1
  -- Must be unsigned comparisons here.
  q1 := if anc ≤ 2#w * s.r1 then 2#w * s.q1 + 1#w else 2#w * s.q1
  r1 := if anc ≤ 2#w * s.r1 then 2#w * s.r1 - anc else 2#w * s.r1
  q2 := if ad ≤ 2#w * s.r2 then 2#w * s.q2 + 1#w else 2#w * s.q2
  r2 := if ad ≤ 2#w * s.r2 then 2#w * s.r2 - ad else 2#w * s.r2

/-- The condition of the loop, with `delta = ad - r2`. -/
def continues (ad : BitVec w) (s : MagicState w) : Bool :=
  s.q1 < ad - s.r2 || (s.q1 == ad - s.r2 && s.r1 == 0#w)

/-- The loop; without a value if it has not ended after `fuel` rounds. -/
def loop (ad anc : BitVec w) : Nat → MagicState w → Option (MagicState w)
  | 0, _ => none
  | fuel + 1, s =>
    let s := s.step ad anc
    if s.continues ad then s.loop ad anc fuel else some s

end MagicState

/-- The multiplier and the shift for a divisor, if the calculations succeed. -/
def magicDivideConstants (d : BitVec w) : Option (BitVec w × Nat) :=
  let two := BitVec.intMin w
  let ad := if d.slt 0#w then -d else d
  if d = 0#w ∨ d = 1#w then none
  else
    let t := two + d >>> (w - 1)
    let anc := t - 1#w - t % ad
    let q1 := two / anc
    let q2 := two / ad
    let start : MagicState w := ⟨w - 1, q1, two - q1 * anc, q2, two - q2 * ad⟩
    (start.loop ad anc w).map fun s =>
      let m := s.q2 + 1#w
      (if d.slt 0#w then -m else m, s.p - w)

def magicIntDivideConstants (d : BitVec 32) : Option (BitVec 32 × Nat) := magicDivideConstants d

def magicLongDivideConstants (d : BitVec 64) : Option (BitVec 64 × Nat) := magicDivideConstants d

/-! ## The loop computes quotients and remainders of powers of two -/

/-- `q` and `r` are quotient and remainder of `2 ^ p` by `n`. -/
structure Divides (p : Nat) (n q r : BitVec w) : Prop where
  eq : q.toNat * n.toNat + r.toNat = 2 ^ p
  lt : r.toNat < n.toNat

theorem Divides.quot_eq {p : Nat} {n q r : BitVec w} (h : Divides p n q r) :
    q.toNat = 2 ^ p / n.toNat := by
  rw [← h.eq, Nat.mul_comm, Nat.mul_add_div (Nat.zero_lt_of_lt h.lt), Nat.div_eq_of_lt h.lt,
    Nat.add_zero]

/-- Doubling both, with a correction of the remainder. -/
theorem Divides.double {p : Nat} {n q r : BitVec w} (hw : 1 < w) (h : Divides p n q r)
    (hn : 2 * n.toNat ≤ 2 ^ w) (hq : 2 * q.toNat + 1 < 2 ^ w) :
    Divides (p + 1) n (if n ≤ 2#w * r then 2#w * q + 1#w else 2#w * q)
      (if n ≤ 2#w * r then 2#w * r - n else 2#w * r) := by
  have hlt := h.lt
  have htwo : (2#w).toNat = 2 := by
    rw [BitVec.toNat_ofNat, Nat.mod_eq_of_lt (Nat.lt_of_lt_of_le (by decide : 2 < 2 ^ 2)
      (Nat.pow_le_pow_right (by decide) hw))]
  have hr2 : (2#w * r).toNat = 2 * r.toNat := by
    rw [BitVec.toNat_mul, htwo, Nat.mod_eq_of_lt (by omega)]
  have hq2 : (2#w * q).toNat = 2 * q.toNat := by
    rw [BitVec.toNat_mul, htwo, Nat.mod_eq_of_lt (by omega)]
  have hone : (1#w).toNat = 1 := by
    rw [BitVec.toNat_ofNat, Nat.mod_eq_of_lt (by omega)]
  have heq := h.eq
  have hpow : 2 ^ (p + 1) = 2 * 2 ^ p := by rw [Nat.pow_succ, Nat.mul_comm]
  split
  next hle =>
    rw [BitVec.le_def, hr2] at hle
    constructor
    · rw [BitVec.toNat_add, hq2, hone, Nat.mod_eq_of_lt (by omega),
        BitVec.toNat_sub_of_le (by rwa [BitVec.le_def, hr2]), hr2, hpow, ← heq, Nat.add_mul]
      rw [Nat.mul_add, ← Nat.mul_assoc]
      omega
    · rw [BitVec.toNat_sub_of_le (by rwa [BitVec.le_def, hr2]), hr2]
      omega
  next hnle =>
    rw [BitVec.le_def, hr2] at hnle
    constructor
    · rw [hq2, hr2, hpow, ← heq]
      ring
    · rw [hr2]
      omega

/-- The loop ends as soon as the power exceeds `anc * delta`. -/
theorem MagicState.continues_iff {ad anc : BitVec w} {s : MagicState w}
    (hfirst : Divides s.p anc s.q1 s.r1) (hsecond : Divides s.p ad s.q2 s.r2) :
    s.continues ad = true ↔ 2 ^ s.p ≤ anc.toNat * (ad.toNat - s.r2.toNat) := by
  have hle : s.r2 ≤ ad := by
    rw [BitVec.le_def]
    exact hsecond.lt.le
  have hdelta := BitVec.toNat_sub_of_le hle
  have hlt := hfirst.lt
  have heq := hfirst.eq
  simp only [continues, Bool.or_eq_true, Bool.and_eq_true, decide_eq_true_eq, beq_iff_eq,
    BitVec.lt_def, ← BitVec.toNat_inj, hdelta, BitVec.toNat_ofNat, Nat.zero_mod]
  rw [← heq]
  constructor
  · rintro (hless | ⟨hsame, hzero⟩)
    · calc s.q1.toNat * anc.toNat + s.r1.toNat ≤ (s.q1.toNat + 1) * anc.toNat := by
            rw [Nat.add_mul]
            omega
        _ ≤ anc.toNat * (ad.toNat - s.r2.toNat) := by
            rw [Nat.mul_comm]
            exact Nat.mul_le_mul_left _ hless
    · rw [hsame, hzero, Nat.mul_comm]
      exact le_rfl
  · intro hle
    by_contra hneg
    rw [not_or, not_and] at hneg
    obtain ⟨hge, hne⟩ := hneg
    rcases Nat.lt_or_ge (ad.toNat - s.r2.toNat) s.q1.toNat with hgt | hle'
    · have := Nat.mul_le_mul_left anc.toNat hgt
      rw [Nat.mul_succ, Nat.mul_comm anc.toNat s.q1.toNat] at this
      omega
    · have hsame : s.q1.toNat = ad.toNat - s.r2.toNat := by omega
      have hpos := hne hsame
      rw [hsame, Nat.mul_comm] at hle
      omega

/-- What holds before a round. -/
structure MagicState.Inv (ad anc : BitVec w) (s : MagicState w) : Prop where
  first : Divides s.p anc s.q1 s.r1
  second : Divides s.p ad s.q2 s.r2
  q1_lt : 2 * s.q1.toNat + 1 < 2 ^ w
  q2_le : s.q2.toNat ≤ anc.toNat

/-- What holds when the loop has ended. -/
structure MagicState.Done (ad anc : BitVec w) (s : MagicState w) : Prop where
  second : Divides s.p ad s.q2 s.r2
  exceeds : anc.toNat * (ad.toNat - s.r2.toNat) < 2 ^ s.p
  q2_le : s.q2.toNat ≤ 2 * anc.toNat + 1

section Loop

variable {ad anc : BitVec w} {s : MagicState w}

theorem MagicState.step_first (hw : 1 < w) (hanc : 2 * anc.toNat ≤ 2 ^ w) (h : s.Inv ad anc) :
    Divides (s.step ad anc).p anc (s.step ad anc).q1 (s.step ad anc).r1 :=
  h.first.double hw hanc h.q1_lt

theorem MagicState.step_second (hw : 1 < w) (had : 2 * ad.toNat ≤ 2 ^ w)
    (hanc : 2 * anc.toNat + 1 < 2 ^ w) (h : s.Inv ad anc) :
    Divides (s.step ad anc).p ad (s.step ad anc).q2 (s.step ad anc).r2 := by
  have hq2 := h.q2_le
  exact h.second.double hw had (by omega)

/-- A round that does not end the loop keeps the quotients small. -/
theorem MagicState.step_inv (hw : 1 < w) (had : 2 * ad.toNat + 1 < 2 ^ w)
    (hanc : 2 * anc.toNat + 1 < 2 ^ w) (h : s.Inv ad anc)
    (hcontinues : (s.step ad anc).continues ad = true) : (s.step ad anc).Inv ad anc := by
  have hfirst := step_first hw (by omega) h
  have hsecond := step_second hw (by omega) hanc h
  have hle := (continues_iff hfirst hsecond).mp hcontinues
  have hpos := Nat.zero_lt_of_lt hfirst.lt
  have hpos2 := Nat.zero_lt_of_lt hsecond.lt
  refine ⟨hfirst, hsecond, ?_, ?_⟩
  · have hq1 : (s.step ad anc).q1.toNat ≤ ad.toNat := by
      rw [hfirst.quot_eq]
      apply Nat.div_le_of_le_mul
      exact hle.trans (Nat.mul_le_mul_left _ (Nat.sub_le _ _))
    omega
  · rw [hsecond.quot_eq]
    apply Nat.div_le_of_le_mul
    rw [Nat.mul_comm]
    exact hle.trans (Nat.mul_le_mul_left _ (Nat.sub_le _ _))

theorem MagicState.step_done (hw : 1 < w) (had : 2 * ad.toNat + 1 < 2 ^ w)
    (hanc : 2 * anc.toNat + 1 < 2 ^ w) (h : s.Inv ad anc)
    (hends : ¬ (s.step ad anc).continues ad = true) : (s.step ad anc).Done ad anc := by
  have hfirst := step_first hw (by omega) h
  have hsecond := step_second hw (by omega) hanc h
  rw [continues_iff hfirst hsecond] at hends
  refine ⟨hsecond, by omega, ?_⟩
  rw [hsecond.quot_eq]
  have hq2 := h.q2_le
  have hpos2 := Nat.zero_lt_of_lt hsecond.lt
  have hmod := h.second.lt
  have heq := h.second.eq
  rw [Nat.div_le_iff_le_mul_add_pred hpos2]
  have hpow : 2 ^ (s.step ad anc).p = 2 * 2 ^ s.p := by
    change 2 ^ (s.p + 1) = _
    rw [Nat.pow_succ, Nat.mul_comm]
  rw [hpow, ← heq]
  have := Nat.mul_le_mul_right ad.toNat hq2
  rw [Nat.mul_add, Nat.mul_comm ad.toNat, Nat.add_mul, Nat.mul_assoc 2 anc.toNat]
  omega

/-- The loop ends, at the latest when `p` is twice the width less two. -/
theorem MagicState.loop_done (hw : 1 < w) (had : 2 * ad.toNat + 1 < 2 ^ w)
    (hanc : 2 * anc.toNat + 1 < 2 ^ w) {fuel : Nat} (h : s.Inv ad anc)
    (hp : s.p < 2 * (w - 1)) (hfuel : 2 * (w - 1) ≤ s.p + fuel) :
    ∃ s', s.loop ad anc fuel = some s' ∧ s'.Done ad anc ∧ s.p < s'.p ∧ s'.p ≤ 2 * (w - 1) := by
  induction fuel generalizing s with
  | zero => omega
  | succ fuel ih =>
    rw [loop]
    by_cases hcontinues : (s.step ad anc).continues ad = true
    · have hinv := step_inv hw had hanc h hcontinues
      have hlt : (s.step ad anc).p < 2 * (w - 1) := by
        by_contra hge
        have hle := (continues_iff hinv.first hinv.second).mp hcontinues
        have hp' : (s.step ad anc).p = 2 * (w - 1) := by
          change s.p + 1 = _
          change ¬ s.p + 1 < _ at hge
          omega
        have hhalf : 2 ^ w = 2 * 2 ^ (w - 1) := by
          rw [← Nat.pow_succ']
          congr 1
          omega
        rw [hp', Nat.mul_comm 2, Nat.pow_mul, Nat.pow_two] at hle
        have hsmall : anc.toNat * (ad.toNat - (s.step ad anc).r2.toNat) <
            2 ^ (w - 1) * 2 ^ (w - 1) := by
          apply Nat.mul_lt_mul_of_lt_of_le (by omega) (by omega)
          exact Nat.two_pow_pos _
        omega
      obtain ⟨s', hloop, hdone, hp1, hp2⟩ := ih hinv hlt (by
        change 2 * (w - 1) ≤ s.p + 1 + fuel
        omega)
      simp only [if_pos hcontinues]
      refine ⟨s', hloop, hdone, ?_, hp2⟩
      change s.p + 1 < s'.p at hp1
      omega
    · simp only [if_neg hcontinues]
      exact ⟨_, rfl, step_done hw had hanc h hcontinues, Nat.lt_succ_self _, hp⟩

end Loop

/-- Division and multiplying back compute quotient and remainder. -/
theorem divides_of_div {n : BitVec w} {p : Nat} {x : BitVec w} (hx : x.toNat = 2 ^ p)
    (hn : 0 < n.toNat) : Divides p n (x / n) (x - x / n * n) := by
  have hquot : (x / n).toNat = x.toNat / n.toNat := BitVec.toNat_udiv
  have hle : x.toNat / n.toNat * n.toNat ≤ x.toNat := Nat.div_mul_le_self _ _
  have hmul : (x / n * n).toNat = x.toNat / n.toNat * n.toNat := by
    rw [BitVec.toNat_mul, hquot, Nat.mod_eq_of_lt (Nat.lt_of_le_of_lt hle x.isLt)]
  have hsub : (x - x / n * n).toNat = x.toNat % n.toNat := by
    rw [BitVec.toNat_sub_of_le (by rwa [BitVec.le_def, hmul]), hmul, Nat.mod_eq_sub_div_mul]
  constructor
  · rw [hquot, hsub, Nat.mul_comm, Nat.div_add_mod, hx]
  · rw [hsub]
    exact Nat.mod_lt _ hn

/-- For a positive divisor that is no power of two the calculations succeed, with a
multiplier for the whole range of the width. -/
theorem magicDivideConstants_eq (hw : 2 < w) {d : BitVec w} (hd : 2 ≤ d.toNat)
    (hlt : d.toNat < 2 ^ (w - 1)) (hpow : ¬ d.toNat ∣ 2 ^ (w - 1)) :
    ∃ m s excess, magicDivideConstants d = some (m, s) ∧ s < w ∧
      MagicMultiplier (2 ^ (w - 1)) d.toNat (2 ^ (w + s)) excess m.toNat := by
  have hwhole : 2 ^ w = 2 * 2 ^ (w - 1) := by
    rw [← Nat.pow_succ']
    congr 1
    omega
  have hfour : 2 ^ 2 ≤ 2 ^ (w - 1) := Nat.pow_le_pow_right (by decide) (by omega)
  have hmod := Nat.mod_lt (2 ^ (w - 1)) (show 0 < d.toNat by omega)
  have hmodPos : 0 < 2 ^ (w - 1) % d.toNat := by
    rw [Nat.pos_iff_ne_zero]
    exact fun hzero => hpow (Nat.dvd_of_mod_eq_zero hzero)
  have hmsb : d.msb = false := by
    rw [BitVec.msb_eq_false_iff_two_mul_lt]
    omega
  have hnonneg : ¬ d.slt 0#w = true := by
    rw [BitVec.slt_zero_eq_msb, hmsb]
    simp
  have hinvalid : ¬ (d = 0#w ∨ d = 1#w) := by
    rintro (rfl | rfl)
    · simp at hd
    · rw [BitVec.toNat_ofNat, Nat.mod_eq_of_lt (by omega)] at hd
      omega
  have htwo : (BitVec.intMin w).toNat = 2 ^ (w - 1) := BitVec.toNat_intMin_of_pos (by omega)
  have ht : BitVec.intMin w + d >>> (w - 1) = BitVec.intMin w := by
    have hshift : d >>> (w - 1) = 0#w := by
      apply BitVec.eq_of_toNat_eq
      rw [BitVec.toNat_ushiftRight, Nat.shiftRight_eq_div_pow, Nat.div_eq_of_lt hlt]
      simp
    rw [hshift, BitVec.add_zero]
  have hone : (1#w).toNat = 1 := by
    rw [BitVec.toNat_ofNat, Nat.mod_eq_of_lt (by omega)]
  have hancNat : (BitVec.intMin w - 1#w - BitVec.intMin w % d).toNat =
      2 ^ (w - 1) - 1 - 2 ^ (w - 1) % d.toNat := by
    have hpred : (BitVec.intMin w - 1#w).toNat = 2 ^ (w - 1) - 1 := by
      rw [BitVec.toNat_sub_of_le (by rw [BitVec.le_def, hone, htwo]; omega), htwo, hone]
    rw [BitVec.toNat_sub_of_le, hpred, BitVec.toNat_umod, htwo]
    rw [BitVec.le_def, hpred, BitVec.toNat_umod, htwo]
    omega
  generalize hanc : BitVec.intMin w - 1#w - BitVec.intMin w % d = anc at hancNat
  -- The largest multiple of the divisor is at least the divisor itself.
  have hancPos : 2 ≤ anc.toNat := by
    have hself := Nat.div_add_mod (2 ^ (w - 1)) d.toNat
    have hge : d.toNat ≤ d.toNat * (2 ^ (w - 1) / d.toNat) :=
      Nat.le_mul_of_pos_right _ (Nat.div_pos hlt.le (by omega))
    rcases Nat.lt_or_ge 2 d.toNat with hthree | htwo'
    · omega
    · have htwo'' : d.toNat = 2 := by omega
      rw [htwo''] at hmodPos hancNat
      omega
  have hfirst := divides_of_div htwo (show 0 < anc.toNat by omega)
  have hsecond := divides_of_div htwo (show 0 < d.toNat by omega)
  have hinv : MagicState.Inv d anc ⟨w - 1, BitVec.intMin w / anc,
      BitVec.intMin w - BitVec.intMin w / anc * anc, BitVec.intMin w / d,
      BitVec.intMin w - BitVec.intMin w / d * d⟩ := by
    have hhalf : ∀ n : BitVec w, 2 ≤ n.toNat → 2 * (BitVec.intMin w / n).toNat ≤ 2 ^ (w - 1) := by
      intro n hn
      rw [BitVec.toNat_udiv, htwo]
      have := Nat.div_mul_le_self (2 ^ (w - 1)) n.toNat
      nlinarith
    have := hhalf anc hancPos
    have := hhalf d hd
    refine ⟨hfirst, hsecond, ?_, ?_⟩
    · change 2 * (BitVec.intMin w / anc).toNat + 1 < 2 ^ w
      omega
    · change (BitVec.intMin w / d).toNat ≤ anc.toNat
      rw [BitVec.toNat_udiv, htwo, hancNat]
      have hself := Nat.div_add_mod (2 ^ (w - 1)) d.toNat
      have hquot : 0 < 2 ^ (w - 1) / d.toNat := Nat.div_pos hlt.le (by omega)
      have htwice : 2 * (2 ^ (w - 1) / d.toNat) ≤ d.toNat * (2 ^ (w - 1) / d.toNat) :=
        Nat.mul_le_mul_right _ hd
      omega
  obtain ⟨s, hloop, hdone, hp, hmax⟩ := MagicState.loop_done (by omega) (by omega) (by omega) hinv
    (show w - 1 < 2 * (w - 1) by omega) (show 2 * (w - 1) ≤ w - 1 + w by omega)
  change w - 1 < s.p at hp
  have hrem := hdone.second.lt
  have hq2 := hdone.q2_le
  have hm : (s.q2 + 1#w).toNat = s.q2.toNat + 1 := by
    rw [BitVec.toNat_add, hone, Nat.mod_eq_of_lt (by omega)]
  refine ⟨s.q2 + 1#w, s.p - w, d.toNat - s.r2.toNat, ?_, by omega, ?_⟩
  · simp only [magicDivideConstants, if_neg hnonneg, if_neg hinvalid, ht, hanc, hloop,
      Option.map_some]
  · rw [show w + (s.p - w) = s.p by omega]
    refine ⟨by omega, hlt.le, by omega, by omega, ?_, ?_, ?_⟩
    · rw [hm, Nat.add_mul, ← hdone.second.eq]
      omega
    · exact Nat.pow_dvd_pow 2 (by omega)
    · rw [← hancNat]
      exact hdone.exceeds

end HotSpot.Opto
