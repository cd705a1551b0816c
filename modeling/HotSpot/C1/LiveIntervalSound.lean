import HotSpot.C1.LiveInterval
import HotSpot.Lib.Simulation
import Mathlib.Data.List.Basic
import Mathlib.Data.List.GetD
import Mathlib.Data.List.Induction

/-! # Live intervals as sets of positions

What building and splitting keep of an interval, and what its queries say of the positions that
it covers.
-/

namespace HotSpot.C1

open LiveInterval

theorem assertThat_true {b : Bool} {message : String} (hb : b = true) :
    assertThat b message = .ok () := by
  rw [hb]
  rfl

theorem of_assertThat {b : Bool} {message : String} {x : Unit}
    (hassert : assertThat b message = .ok x) : b = true := by
  unfold assertThat at hassert
  split at hassert
  next hb => exact hb
  next => cases hassert

/-! ## Use positions -/

/-- The array for a list of positions and kinds -/
def flatUses (ps : List (Int × Int)) : List Int := ps.flatMap fun p => [p.1, p.2]

/-- The positions and kinds of an array -/
def usePairs : List Int → List (Int × Int)
  | p :: kind :: rest => (p, kind) :: usePairs rest
  | _ => []

@[simp] theorem flatUses_nil : flatUses [] = [] := rfl

@[simp] theorem flatUses_cons (p : Int × Int) (ps : List (Int × Int)) :
    flatUses (p :: ps) = p.1 :: p.2 :: flatUses ps := rfl

@[simp] theorem flatUses_append (ps qs : List (Int × Int)) :
    flatUses (ps ++ qs) = flatUses ps ++ flatUses qs := List.flatMap_append

@[simp] theorem length_flatUses (ps : List (Int × Int)) : (flatUses ps).length = 2 * ps.length := by
  induction ps with
  | nil => rfl
  | cons p ps ih =>
    simp only [flatUses_cons, List.length_cons, ih]
    omega

@[simp] theorem usePairs_flatUses (ps : List (Int × Int)) : usePairs (flatUses ps) = ps := by
  induction ps with
  | nil => rfl
  | cons p ps ih => rw [flatUses_cons, usePairs, ih]

theorem take_flatUses (n : Nat) (ps : List (Int × Int)) :
    (flatUses ps).take (2 * n) = flatUses (ps.take n) := by
  induction n generalizing ps with
  | zero => rfl
  | succ n ih =>
    cases ps with
    | nil => rfl
    | cons p ps =>
      rw [show 2 * (n + 1) = 2 * n + 1 + 1 by omega, flatUses_cons, List.take_succ_cons,
        List.take_succ_cons, ih, List.take_succ_cons, flatUses_cons]

theorem drop_flatUses (n : Nat) (ps : List (Int × Int)) :
    (flatUses ps).drop (2 * n) = flatUses (ps.drop n) := by
  induction n generalizing ps with
  | zero => rfl
  | succ n ih =>
    cases ps with
    | nil => rfl
    | cons p ps =>
      rw [show 2 * (n + 1) = 2 * n + 1 + 1 by omega, flatUses_cons, List.drop_succ_cons,
        List.drop_succ_cons, ih, List.drop_succ_cons]

theorem getD_flatUses_append (ps : List (Int × Int)) (q : Int × Int) (qs : List (Int × Int)) :
    (flatUses (ps ++ q :: qs)).getD (2 * ps.length) 0 = q.1 ∧
      (flatUses (ps ++ q :: qs)).getD (2 * ps.length + 1) 0 = q.2 := by
  rw [flatUses_append, flatUses_cons]
  constructor
  · rw [List.getD_append_right _ _ _ _ (by simp), length_flatUses, Nat.sub_self]
    rfl
  · rw [List.getD_append_right _ _ _ _ (by simp), length_flatUses, Nat.add_sub_cancel_left]
    rfl

/-- Positions in descending order, with valid kinds. -/
structure UsesSorted (ps : List (Int × Int)) : Prop where
  descending : ps.Pairwise fun p q => q.1 < p.1
  valid : ∀ p ∈ ps, isValidKind p.2 = true

namespace UsesSorted

variable {ps qs : List (Int × Int)}

theorem sublist (hps : UsesSorted ps) (hsub : qs.Sublist ps) : UsesSorted qs :=
  ⟨hps.descending.sublist hsub, fun p hp => hps.valid p (hsub.subset hp)⟩

/-- The positions from `pos` on come first. -/
theorem filter_eq (hps : UsesSorted ps) (pos : Int) :
    ps.take (ps.filter (pos ≤ ·.1)).length = ps.filter (pos ≤ ·.1) ∧
      ps.drop (ps.filter (pos ≤ ·.1)).length = ps.filter (·.1 < pos) := by
  induction ps with
  | nil => exact ⟨rfl, rfl⟩
  | cons p ps ih =>
    obtain ⟨hhead, htail⟩ := List.pairwise_cons.1 hps.descending
    by_cases hp : pos ≤ p.1
    · obtain ⟨htake, hdrop⟩ := ih (hps.sublist (List.sublist_cons_self p ps))
      rw [List.filter_cons_of_pos (by simpa using hp),
        List.filter_cons_of_neg (by simpa using hp), List.length_cons, List.take_succ_cons,
        List.drop_succ_cons, htake, hdrop]
      exact ⟨rfl, rfl⟩
    · have hnone : (p :: ps).filter (pos ≤ ·.1) = [] := by
        refine List.filter_eq_nil_iff.2 ?_
        simp only [List.forall_mem_cons, decide_eq_true_eq]
        exact ⟨hp, fun q hq => by have := hhead q hq; omega⟩
      have hall : (p :: ps).filter (·.1 < pos) = p :: ps := by
        refine List.filter_eq_self.2 ?_
        simp only [List.forall_mem_cons, decide_eq_true_eq]
        exact ⟨by omega, fun q hq => by have := hhead q hq; omega⟩
      rw [hnone, hall]
      exact ⟨rfl, rfl⟩

/-- Where the loop of `split` over the use positions stops. -/
theorem splitIndex_eq (hps : UsesSorted ps) (pos : Int) (rest : List (Int × Int)) :
    splitIndex (flatUses (ps ++ rest)) pos (2 * ps.length) =
      2 * (ps.filter (pos ≤ ·.1)).length := by
  induction ps using List.reverseRecOn generalizing rest with
  | nil => rfl
  | append_singleton ps q ih =>
    have hsub := hps.sublist (List.sublist_append_left ps [q])
    rw [List.append_assoc, List.singleton_append, List.length_append, List.length_singleton,
      show 2 * (ps.length + 1) = 2 * ps.length + 2 by omega, splitIndex,
      (getD_flatUses_append ps q rest).1]
    by_cases hq : q.1 < pos
    · rw [if_pos hq, ih hsub, List.filter_append, List.filter_cons_of_neg (by simpa using hq),
        List.filter_nil, List.append_nil]
    · have hall : (ps ++ [q]).filter (pos ≤ ·.1) = ps ++ [q] := by
        refine List.filter_eq_self.2 fun p hp => ?_
        rw [decide_eq_true_eq]
        rcases List.mem_append.1 hp with hp | hp
        · have := (List.pairwise_append.1 hps.descending).2.2 p hp q (by simp)
          omega
        · rw [List.mem_singleton.1 hp]
          omega
      rw [if_neg hq, hall, List.length_append, List.length_singleton]
      omega

theorem checkSplitUses_eq (hps : UsesSorted ps) {ok : Int → Bool}
    (hok : ∀ p ∈ ps, ok p.1 = true) : checkSplitUses ok (flatUses ps) = .ok () := by
  induction ps with
  | nil => rfl
  | cons p ps ih =>
    obtain ⟨hp, hrest⟩ := List.forall_mem_cons.1 hok
    rw [flatUses_cons, checkSplitUses, assertThat_true hp, bind_ok,
      assertThat_true (hps.valid p List.mem_cons_self), bind_ok]
    exact ih (hps.sublist (List.sublist_cons_self p ps)) hrest

/-- The first use is the last of the array. -/
theorem firstUsageLoop_eq (hps : UsesSorted ps) :
    firstUsageLoop (flatUses ps) .noUse (flatUses ps).length =
      (ps.getLast?.map (·.1)).getD maxJint := by
  induction ps using List.reverseRecOn with
  | nil => rfl
  | append_singleton ps q =>
    have hvalid := hps.valid q (by simp)
    simp only [isValidKind, decide_eq_true_eq] at hvalid
    rw [length_flatUses, List.length_append, List.length_singleton,
      show 2 * (ps.length + 1) = 2 * ps.length + 2 by omega, firstUsageLoop,
      (getD_flatUses_append ps q []).1, (getD_flatUses_append ps q []).2,
      if_pos (by simp only [UseKind.toInt]; omega), List.getLast?_concat]
    rfl

end UsesSorted

/-! ## The invariant -/

/-- Ranges between 0 and the sentinel -/
def Bounded (rs : List LiveRange) : Prop := ∀ r ∈ rs, 0 ≤ r.fromPos ∧ r.toPos < maxJint

namespace LiveInterval

variable {vregBase : Nat} {it : LiveInterval}

def positions (it : LiveInterval) : Set Int := rangesSet it.ranges

def usePositions (it : LiveInterval) : List (Int × Int) := usePairs it.usePosAndKinds

structure WellFormed (it : LiveInterval) : Prop where
  separated : SeparatedRanges it.ranges
  bounded : Bounded it.ranges
  uses : ∃ ps, it.usePosAndKinds = flatUses ps ∧ UsesSorted ps
  cached : it.cachedTo = -1 ∨ it.calcTo = .ok it.cachedTo

/-- `to()` is the position behind the last one. -/
theorem WellFormed.toPos_eq (hit : it.WellFormed) (hne : it.ranges ≠ []) :
    ∃ t, it.calcTo = .ok t ∧ it.toPos = .ok (t, { it with cachedTo := t }) ∧
      IsGreatest it.positions (t - 1) ∧ t < maxJint := by
  obtain ⟨r, hlast⟩ : ∃ r, it.ranges.getLast? = some r :=
    ⟨_, List.getLast?_eq_some_getLast hne⟩
  have hmem := List.mem_of_getLast? hlast
  have hcalc : it.calcTo = .ok r.toPos := by rw [calcTo, hlast]
  have hlt := hit.separated.nonempty r hmem
  have hbound := hit.bounded r hmem
  refine ⟨r.toPos, hcalc, ?_, ⟨⟨r, hmem, by omega, by omega⟩, fun x hx => ?_⟩, hbound.2⟩
  · rw [toPos, hcalc, bind_ok]
    rcases hit.cached with hcached | hcached
    · simp only [hcached, if_true]
      rw [assertThat_true (by simp)]
      rfl
    · have heq : it.cachedTo = r.toPos := Except.ok.inj (hcached.symm.trans hcalc)
      rw [← heq, if_neg (by omega)]
      simp only [decide_true]
      rw [assertThat_true rfl]
      rfl
  · have := hit.separated.lt_last hlast hx
    omega

/-! ## Construction -/

/-- What `add_range` and `add_use_pos` keep. -/
def Fresh (it : LiveInterval) : Prop := it.WellFormed ∧ it.cachedTo = -1

theorem fresh_new (regNum : Int) : (new regNum).Fresh :=
  ⟨⟨.nil, by simp [Bounded, new], ⟨[], rfl, .nil, by simp⟩, .inl rfl⟩, rfl⟩

theorem Fresh.addRange (hit : it.Fresh) {fromPos toPos : Int} {it' : LiveInterval}
    (hfrom : 0 ≤ fromPos) (hto : toPos < maxJint) (hrun : it.addRange fromPos toPos = .ok it') :
    it'.Fresh := by
  obtain ⟨⟨hsep, hbound, huses, -⟩, hcached⟩ := hit
  unfold LiveInterval.addRange at hrun
  obtain ⟨_, hlt, hrun⟩ := bind_eq_ok hrun
  obtain ⟨_, hnext, hrun⟩ := bind_eq_ok hrun
  obtain ⟨_, hfirst, hrun⟩ := bind_eq_ok hrun
  replace hlt := of_decide_eq_true (of_assertThat hlt)
  replace hnext := of_decide_eq_true (of_assertThat hnext)
  replace hfirst := of_decide_eq_true (of_assertThat hfirst)
  split at hrun
  next hranges =>
    cases hrun
    refine ⟨⟨SeparatedRanges.cons_iff.2 ⟨hlt, by simp, .nil⟩, ?_, huses, .inl hcached⟩, hcached⟩
    simpa [Bounded] using ⟨hfrom, hto⟩
  next first next hranges =>
    rw [hranges] at hsep hbound hnext
    obtain ⟨hnonempty, hapart, htail⟩ := SeparatedRanges.cons_iff.1 hsep
    obtain ⟨⟨hfirstFrom, hfirstTo⟩, hboundNext⟩ := List.forall_mem_cons.1 hbound
    have hbehind : ∀ r ∈ next, toPos < r.fromPos := by
      cases next with
      | nil => simp
      | cons r next =>
        have hr : toPos < r.fromPos := by simpa using hnext
        refine List.forall_mem_cons.2 ⟨hr, fun r' hr' => ?_⟩
        obtain ⟨hlt, hapart, -⟩ := SeparatedRanges.cons_iff.1 htail
        have := hapart r' hr'
        omega
    have hfirst : fromPos ≤ first.toPos := by simpa [LiveInterval.first, hranges] using hfirst
    split at hrun
    next hjoin =>
      cases hrun
      refine ⟨⟨SeparatedRanges.cons_iff.2 ⟨by dsimp only; omega, fun r hr => ?_, htail⟩,
        List.forall_mem_cons.2 ⟨⟨by dsimp only; omega, by dsimp only; omega⟩, hboundNext⟩, huses,
        .inl hcached⟩, hcached⟩
      have := hapart r hr
      have := hbehind r hr
      dsimp only
      omega
    next hspace =>
      cases hrun
      refine ⟨⟨SeparatedRanges.cons_iff.2 ⟨hlt, ?_, hsep⟩,
        List.forall_mem_cons.2 ⟨⟨hfrom, hto⟩, hbound⟩, huses, .inl hcached⟩, hcached⟩
      exact List.forall_mem_cons.2 ⟨Int.not_le.1 hspace, hbehind⟩

theorem isValidKind_toInt {kind : UseKind} (hkind : kind ≠ .noUse) :
    isValidKind kind.toInt = true := by
  cases kind with
  | noUse => exact absurd rfl hkind
  | loopEndMarker | shouldHaveRegister | mustHaveRegister => rfl

theorem Fresh.addUsePos (hit : it.Fresh) {pos : Int} {kind : UseKind} {it' : LiveInterval}
    (hrun : it.addUsePos vregBase pos kind = .ok it') : it'.Fresh := by
  obtain ⟨⟨hsep, hbound, ⟨ps, hps, hsorted⟩, -⟩, hcached⟩ := hit
  have hkeep {uses : List Int} (qs : List (Int × Int)) (huses : uses = flatUses qs)
      (hqs : UsesSorted qs) : Fresh { it with usePosAndKinds := uses } :=
    ⟨⟨hsep, hbound, ⟨qs, huses, hqs⟩, .inl hcached⟩, hcached⟩
  unfold LiveInterval.addUsePos at hrun
  obtain ⟨_, -, hrun⟩ := bind_eq_ok hrun
  obtain ⟨_, -, hrun⟩ := bind_eq_ok hrun
  split at hrun
  next hkind =>
    have hvalid := isValidKind_toInt hkind.1
    obtain ⟨_, -, hrun⟩ := bind_eq_ok hrun
    obtain ⟨_, -, hrun⟩ := bind_eq_ok hrun
    dsimp only at hrun
    rw [hps] at hrun
    rcases List.eq_nil_or_concat' ps with rfl | ⟨qs, q, rfl⟩
    · rw [if_pos (.inl rfl)] at hrun
      cases hrun
      exact hkeep [(pos, kind.toInt)] rfl ⟨List.pairwise_singleton _ _, by simpa⟩
    · have hlen : (flatUses (qs ++ [q])).length = 2 * qs.length + 2 := by simp
      rw [hlen, Nat.add_sub_cancel, show 2 * qs.length + 2 - 1 = 2 * qs.length + 1 by omega,
        (getD_flatUses_append qs q []).1, (getD_flatUses_append qs q []).2] at hrun
      split at hrun
      next hpos =>
        cases hrun
        have hlt : pos < q.1 := hpos.resolve_left (by omega)
        refine hkeep (qs ++ [q] ++ [(pos, kind.toInt)]) (by simp) ⟨?_, ?_⟩
        · refine List.pairwise_append.2 ⟨hsorted.descending, List.pairwise_singleton _ _, ?_⟩
          intro p hp p' hp'
          rw [List.mem_singleton.1 hp']
          rcases List.mem_append.1 hp with hp | hp
          · have := (List.pairwise_append.1 hsorted.descending).2.2 p hp q (by simp)
            dsimp only
            omega
          · rwa [List.mem_singleton.1 hp]
        · intro p hp
          rcases List.mem_append.1 hp with hp | hp
          · exact hsorted.valid p hp
          · rw [List.mem_singleton.1 hp]
            exact hvalid
      next =>
        split at hrun
        next hkind' =>
          obtain ⟨_, -, hrun⟩ := bind_eq_ok hrun
          cases hrun
          refine hkeep (qs ++ [(q.1, kind.toInt)]) ?_ ⟨?_, ?_⟩
          · rw [flatUses_append, flatUses_append, List.set_append_right _ _ (by simp),
              length_flatUses, Nat.add_sub_cancel_left]
            rfl
          · have hpair := List.pairwise_append.1 hsorted.descending
            refine List.pairwise_append.2 ⟨hpair.1, List.pairwise_singleton _ _, ?_⟩
            intro p hp p' hp'
            rw [List.mem_singleton.1 hp']
            exact hpair.2.2 p hp q (by simp)
          · intro p hp
            rcases List.mem_append.1 hp with hp | hp
            · exact hsorted.valid p (List.mem_append_left _ hp)
            · rw [List.mem_singleton.1 hp]
              exact hvalid
        next =>
          cases hrun
          exact ⟨⟨hsep, hbound, ⟨_, hps, hsorted⟩, .inl hcached⟩, hcached⟩
  next =>
    cases hrun
    exact ⟨⟨hsep, hbound, ⟨_, hps, hsorted⟩, .inl hcached⟩, hcached⟩

end LiveInterval

/-! ## Queries -/

section

variable {cur : LiveRange} {rs rs' next : List LiveRange}

/-- There is space in front of the next range, also of the sentinel. -/
theorem to_lt_next (hsep : SeparatedRanges (cur :: next)) (hbound : Bounded (cur :: next)) :
    cur.toPos < (next.headD rangeEnd).fromPos := by
  cases next with
  | nil => exact (hbound cur List.mem_cons_self).2
  | cons r next => exact (SeparatedRanges.cons_iff.1 hsep).2.1 r List.mem_cons_self

theorem Bounded.tail (hbound : Bounded (cur :: next)) : Bounded next :=
  fun r hr => hbound r (List.mem_cons_of_mem _ hr)

/-- For an operand that is read, the end of a range counts. -/
theorem coversLoop_eq (hsep : SeparatedRanges rs) (hbound : Bounded rs) (opId : Int)
    (mode : OprMode) : ∃ b, coversLoop opId mode rs = .ok b ∧ (b = true ↔
      opId ∈ rangesSet rs ∨ mode ≠ .outputMode ∧ opId - 1 ∈ rangesSet rs) := by
  induction rs with
  | nil => exact ⟨false, rfl, by simp⟩
  | cons cur next ih =>
    have hnonempty := hsep.nonempty cur List.mem_cons_self
    have hbehind {x : Int} (hx : x ∈ rangesSet next) := hsep.lt_of_mem hx
    rw [coversLoop]
    split
    next hlt =>
      obtain ⟨b, hb, hiff⟩ := ih hsep.tail hbound.tail
      refine ⟨b, hb, hiff.trans ?_⟩
      rw [mem_rangesSet_cons, mem_rangesSet_cons]
      refine or_congr (or_iff_right ?_).symm (and_congr_right fun _ => (or_iff_right ?_).symm) <;>
        omega
    next hle =>
      rw [assertThat_true (by
        have := to_lt_next hsep hbound
        rw [decide_eq_true_eq]
        omega), bind_ok]
      have hnext : opId ∉ rangesSet next := fun hx => by have := hbehind hx; omega
      have hnext' : opId - 1 ∉ rangesSet next := fun hx => by have := hbehind hx; omega
      split
      next hmode =>
        refine ⟨_, rfl, ?_⟩
        simp [hmode, mem_rangesSet_cons, hnext]
      next hmode =>
        refine ⟨_, rfl, ?_⟩
        simp only [mem_rangesSet_cons, hnext, hnext', or_false, decide_eq_true_eq, ne_eq, hmode,
          not_false_eq_true, true_and]
        omega

theorem holeLoop_eq (hsep : SeparatedRanges rs) (hbound : Bounded rs) {holeFrom holeTo : Int}
    (hlt : holeFrom < holeTo) (hlast : ∃ r, rs.getLast? = some r ∧ holeTo ≤ r.toPos) :
    ∃ b, holeLoop holeFrom holeTo rs = .ok b ∧
      (b = true ↔ ∃ x, holeFrom ≤ x ∧ x < holeTo ∧ x ∉ rangesSet rs) := by
  induction rs with
  | nil => simp at hlast
  | cons cur next ih =>
    rw [holeLoop, assertThat_true (by simpa using to_lt_next hsep hbound), bind_ok]
    split
    next hbefore =>
      refine ⟨true, rfl, iff_of_true rfl ⟨holeFrom, le_refl _, hlt, fun hx => ?_⟩⟩
      have := hsep.from_le_of_mem hx
      omega
    next hfrom =>
      split
      next hinside =>
        refine ⟨false, rfl, iff_of_false Bool.false_ne_true ?_⟩
        rintro ⟨x, hle, hxlt, hx⟩
        exact hx (mem_rangesSet_cons.2 (.inl ⟨by omega, by omega⟩))
      next hto =>
        split
        next hover =>
          exact ⟨true, rfl, iff_of_true rfl ⟨cur.toPos, hover, by omega, hsep.to_not_mem⟩⟩
        next hbehind =>
          have hlast' : ∃ r, next.getLast? = some r ∧ holeTo ≤ r.toPos := by
            obtain ⟨r, hr, hle⟩ := hlast
            cases next with
            | nil =>
              obtain rfl : cur = r := by simpa using hr
              omega
            | cons r' next => exact ⟨r, by simpa using hr, hle⟩
          obtain ⟨b, hb, hiff⟩ := ih hsep.tail hbound.tail hlast'
          refine ⟨b, hb, hiff.trans ?_⟩
          refine exists_congr fun x => and_congr_right fun hle => and_congr_right fun _ => ?_
          rw [mem_rangesSet_cons]
          exact not_congr (or_iff_right (by omega)).symm

/-- The smallest common position, or -1 -/
def IntersectsAt (rs rs' : List LiveRange) (p : Int) : Prop :=
  (p = -1 ∧ rangesSet rs ∩ rangesSet rs' = ∅) ∨
    p ≠ -1 ∧ IsLeast (rangesSet rs ∩ rangesSet rs') p

theorem IntersectsAt.symm {p : Int} (hp : IntersectsAt rs rs' p) : IntersectsAt rs' rs p := by
  unfold IntersectsAt
  rw [Set.inter_comm]
  exact hp

theorem rangesIntersectAt_eq (hsep : SeparatedRanges rs) (hbound : Bounded rs)
    (hsep' : SeparatedRanges rs') (hbound' : Bounded rs') (hne : rs ≠ []) (hne' : rs' ≠ []) :
    ∃ p, rangesIntersectAt rs rs' = .ok p ∧ IntersectsAt rs rs' p := by
  have hnone {r r' : LiveRange} {next' : List LiveRange} (hsep' : SeparatedRanges (r' :: next'))
      (hle : r.toPos ≤ r'.fromPos) : IntersectsAt [r] (r' :: next') (-1) := by
    refine .inl ⟨rfl, ?_⟩
    rw [hsep'.inter_tail hle]
    exact Set.eq_empty_of_forall_notMem fun x hx => not_mem_rangesSet_nil hx.1
  have htail {r r' : LiveRange} {next next' : List LiveRange} {p : Int}
      (hsep' : SeparatedRanges (r' :: next')) (hle : r.toPos ≤ r'.fromPos)
      (hp : IntersectsAt next (r' :: next') p) : IntersectsAt (r :: next) (r' :: next') p := by
    unfold IntersectsAt
    rwa [hsep'.inter_tail hle]
  have hleast {r r' : LiveRange} {next next' : List LiveRange}
      (hsep' : SeparatedRanges (r' :: next')) (hbound' : Bounded (r' :: next'))
      (hle : r.fromPos ≤ r'.fromPos) (hlt : r'.fromPos < r.toPos) :
      IntersectsAt (r :: next) (r' :: next') r'.fromPos := by
    have := (hbound' r' List.mem_cons_self).1
    exact .inr ⟨by omega, hsep'.isLeast_inter hle hlt⟩
  fun_induction rangesIntersectAt rs rs' with
  | case1 => exact absurd rfl hne
  | case2 => exact absurd rfl hne'
  | case3 r₁ r₂ next₂ hlt hle =>
    exact ⟨_, rfl, hnone hsep' hle⟩
  | case4 r₁ next₁ r₂ next₂ hlt hle hnext ih =>
    obtain ⟨p, hp, hspec⟩ := ih hsep.tail hbound.tail hsep' hbound' hnext hne'
    exact ⟨p, hp, htail hsep' hle hspec⟩
  | case5 r₁ next₁ r₂ next₂ hlt hnle =>
    exact ⟨_, rfl, hleast hsep' hbound' hlt.le (by omega)⟩
  | case6 r₁ next₁ r₂ hnlt hlt hle =>
    exact ⟨_, rfl, (hnone hsep hle).symm⟩
  | case7 r₁ next₁ r₂ next₂ hnlt hlt hle hnext ih =>
    obtain ⟨p, hp, hspec⟩ := ih hsep hbound hsep'.tail hbound'.tail hne hnext
    exact ⟨p, hp, (htail hsep hle hspec.symm).symm⟩
  | case8 r₁ next₁ r₂ next₂ hnlt hlt hnle =>
    exact ⟨_, rfl, (hleast hsep hbound hlt.le (by omega)).symm⟩
  | case9 | case10 =>
    have := hsep.nonempty _ List.mem_cons_self
    omega
  | case11 | case12 =>
    have := hsep'.nonempty _ List.mem_cons_self
    omega
  | case13 r₁ next₁ r₂ next₂ hnlt hnlt' =>
    have := hsep'.nonempty _ List.mem_cons_self
    exact ⟨_, rfl, (hleast hsep hbound (by omega) (by omega)).symm⟩

end

namespace LiveInterval

variable {vregBase : Nat} {it : LiveInterval} {pos : Int}

/-- A position behind the start and before the end. -/
def Inside (it : LiveInterval) (pos : Int) : Prop :=
  it.fromPos < pos ∧ ∃ t, it.calcTo = .ok t ∧ pos < t

/-- The interval is divided at a position: in front of it is in `head`, the rest in `tail`. -/
structure Divides (it head tail : LiveInterval) (pos : Int) : Prop where
  head_positions : ∀ x, x ∈ head.positions ↔ x ∈ it.positions ∧ x < pos
  tail_positions : ∀ x, x ∈ tail.positions ↔ x ∈ it.positions ∧ pos ≤ x
  head_uses : head.usePositions = it.usePositions.filter (·.1 < pos)
  tail_uses : tail.usePositions = it.usePositions.filter (pos ≤ ·.1)
  head_to : ∃ t it', head.toPos = .ok (t, it') ∧ IsGreatest head.positions (t - 1)
  tail_to : ∃ t it', tail.toPos = .ok (t, it') ∧ IsGreatest tail.positions (t - 1)

theorem WellFormed.exists_toPos (hit : it.WellFormed) (hne : it.ranges ≠ []) :
    ∃ t it', it.toPos = .ok (t, it') ∧ IsGreatest it.positions (t - 1) := by
  obtain ⟨t, -, hto, hgreatest, -⟩ := hit.toPos_eq hne
  exact ⟨t, _, hto, hgreatest⟩

theorem WellFormed.cache (hit : it.WellFormed) {t : Int} (ht : it.calcTo = .ok t) :
    WellFormed { it with cachedTo := t } :=
  { hit with cached := .inr ht }

/-! ## Splitting -/

/-- The ranges in front of the position, and the others. -/
structure RangesDivided (rs head tail : List LiveRange) (pos : Int) : Prop where
  separated : SeparatedRanges head ∧ SeparatedRanges tail
  bounded : Bounded head ∧ Bounded tail
  ne_nil : head ≠ [] ∧ tail ≠ []
  mem_head : ∀ x, x ∈ rangesSet head ↔ x ∈ rangesSet rs ∧ x < pos
  mem_tail : ∀ x, x ∈ rangesSet tail ↔ x ∈ rangesSet rs ∧ pos ≤ x

/-- The loop stops inside a range or in the space in front of one. -/
theorem splitRanges_eq (rs before : List LiveRange) (hsep : SeparatedRanges (before ++ rs))
    (hbound : Bounded (before ++ rs)) (hbefore : ∀ r ∈ before, r.toPos ≤ pos)
    (hfirst : ∃ r, (before ++ rs).head? = some r ∧ r.fromPos < pos)
    (hlast : ∃ r ∈ rs, pos < r.toPos) :
    ∃ head tail, splitRanges pos before rs = .ok (head, tail) ∧
      RangesDivided (before ++ rs) head tail pos := by
  induction rs generalizing before with
  | nil => simp at hlast
  | cons cur next ih =>
    obtain ⟨hboundBefore, hboundCur⟩ := List.forall_mem_append.1 hbound
    obtain ⟨hcur, hboundNext⟩ := List.forall_mem_cons.1 hboundCur
    rw [splitRanges]
    split
    next hle =>
      have happend : before ++ cur :: next = before ++ [cur] ++ next := by simp
      rw [happend] at hsep hbound hfirst ⊢
      refine ih (before ++ [cur]) hsep hbound ?_ hfirst ?_
      · refine List.forall_mem_append.2 ⟨hbefore, ?_⟩
        simpa using hle
      · obtain ⟨r, hr, hlt⟩ := hlast
        rcases List.mem_cons.1 hr with rfl | hr
        · omega
        · exact ⟨r, hr, hlt⟩
    next hlt =>
      have hlt : pos < cur.toPos := Int.not_le.1 hlt
      split
      next hfrom =>
        obtain ⟨hhead, htail⟩ := hsep.cut hfrom hlt
        refine ⟨_, _, rfl, ⟨hhead, htail⟩, ⟨?_, ?_⟩, ⟨by simp, by simp⟩,
          fun x => (hsep.mem_cut hfrom hlt).1, fun x => (hsep.mem_cut hfrom hlt).2⟩
        · refine List.forall_mem_append.2 ⟨hboundBefore, ?_⟩
          simp only [List.mem_singleton, forall_eq]
          omega
        · exact List.forall_mem_cons.2 ⟨⟨by dsimp only; omega, hcur.2⟩, hboundNext⟩
      next hfrom =>
        have hne : before ≠ [] := by
          rintro rfl
          obtain ⟨r, hr, hrpos⟩ := hfirst
          obtain rfl : cur = r := by simpa using hr
          exact hfrom hrpos
        rw [assertThat_true (by simpa using hne), bind_ok]
        obtain ⟨hsepBefore, hsepCur, -⟩ := SeparatedRanges.append_iff.1 hsep
        have hmem (x : Int) := hsep.mem_cut_space (x := x) hbefore (Int.not_lt.1 hfrom)
        exact ⟨_, _, rfl, ⟨hsepBefore, hsepCur⟩, ⟨hboundBefore, hboundCur⟩, ⟨hne, by simp⟩,
          fun x => (hmem x).1, fun x => (hmem x).2⟩

theorem Inside.first_from (hinside : it.Inside pos) :
    ∃ first next, it.ranges = first :: next ∧ it.first = first ∧ first.fromPos < pos := by
  obtain ⟨hfrom, t, ht, -⟩ := hinside
  cases hranges : it.ranges with
  | nil => simp [calcTo, hranges] at ht
  | cons first next =>
    have hfirst : it.first = first := by simp [LiveInterval.first, hranges]
    exact ⟨first, next, rfl, hfirst, by rwa [fromPos, hfirst] at hfrom⟩

theorem exists_mem_of_calcTo {t : Int} (ht : it.calcTo = .ok t) :
    ∃ r ∈ it.ranges, r.toPos = t := by
  unfold calcTo at ht
  split at ht
  next => cases ht
  next r hr => exact ⟨r, List.mem_of_getLast? hr, Except.ok.inj ht⟩

/-- `split` divides the interval. -/
theorem WellFormed.split_eq (hit : it.WellFormed) (hvirtual : it.isVirtual vregBase = true)
    (hinside : it.Inside pos) :
    ∃ this result, it.split vregBase pos = .ok (this, result) ∧ this.WellFormed ∧
      result.WellFormed ∧ it.Divides this result pos := by
  obtain ⟨first, next, hranges, -, hfrom⟩ := hinside.first_from
  obtain ⟨-, t, ht, hlt⟩ := hinside
  obtain ⟨last, hlast, rfl⟩ := exists_mem_of_calcTo ht
  obtain ⟨head, tail, hsplit, hdivided⟩ := splitRanges_eq it.ranges [] hit.separated hit.bounded
    (by simp) ⟨first, by simp [hranges], hfrom⟩ ⟨last, hlast, hlt⟩
  obtain ⟨ps, hps, hsorted⟩ := hit.uses
  obtain ⟨htake, hdrop⟩ := hsorted.filter_eq pos
  have hindex := hsorted.splitIndex_eq pos []
  rw [List.append_nil] at hindex
  have hlow := hsorted.sublist (List.filter_sublist (p := (·.1 < pos)) (l := ps))
  have hhigh := hsorted.sublist (List.filter_sublist (p := (pos ≤ ·.1)) (l := ps))
  have hdropUses : (flatUses ps).drop (2 * (ps.filter (pos ≤ ·.1)).length) =
      flatUses (ps.filter (·.1 < pos)) := by rw [drop_flatUses, hdrop]
  have htakeUses : (flatUses ps).take (2 * (ps.filter (pos ≤ ·.1)).length) =
      flatUses (ps.filter (pos ≤ ·.1)) := by rw [take_flatUses, htake]
  have htotal : (flatUses (ps.filter (·.1 < pos))).length +
      (flatUses (ps.filter (pos ≤ ·.1))).length = (flatUses ps).length := by
    rw [← hdropUses, ← htakeUses, Nat.add_comm, ← List.length_append, List.take_append_drop]
  have hthis : WellFormed { it with
      ranges := head, usePosAndKinds := flatUses (ps.filter (·.1 < pos)), cachedTo := -1 } :=
    ⟨hdivided.separated.1, hdivided.bounded.1, ⟨_, rfl, hlow⟩, .inl rfl⟩
  have hresult : WellFormed { new (-1) with
      ranges := tail, usePosAndKinds := flatUses (ps.filter (pos ≤ ·.1)) } :=
    ⟨hdivided.separated.2, hdivided.bounded.2, ⟨_, rfl, hhigh⟩, .inl rfl⟩
  refine ⟨_, _, ?_, hthis, hresult, hdivided.mem_head, hdivided.mem_tail, ?_, ?_,
    hthis.exists_toPos hdivided.ne_nil.1, hresult.exists_toPos hdivided.ne_nil.2⟩
  · unfold LiveInterval.split
    rw [assertThat_true hvirtual, bind_ok, hsplit, bind_ok]
    dsimp only
    rw [hps, length_flatUses, hindex, hdropUses, htakeUses, assertThat_true (by simp), bind_ok,
      assertThat_true (by simp), bind_ok, ← length_flatUses, htotal, assertThat_true (by simp),
      bind_ok, hlow.checkSplitUses_eq (by simp), bind_ok, hhigh.checkSplitUses_eq (by simp),
      bind_ok]
    rfl
  · simp [usePositions, hps]
  · simp [usePositions, hps]

/-- The two parts of an interval whose first range is cut. -/
theorem rangesDivided_first {first : LiveRange} {next : List LiveRange}
    (hsep : SeparatedRanges ([] ++ first :: next)) (hbound : Bounded (first :: next))
    (hfrom : first.fromPos < pos) (hto : pos < first.toPos) :
    RangesDivided (first :: next) [⟨first.fromPos, pos⟩] (⟨pos, first.toPos⟩ :: next) pos := by
  obtain ⟨hfirst, hboundNext⟩ := List.forall_mem_cons.1 hbound
  have hcut := hsep.cut hfrom hto
  have hmem (x : Int) := hsep.mem_cut (x := x) hfrom hto
  refine ⟨hcut, ⟨?_, ?_⟩, ⟨by simp, by simp⟩, fun x => (hmem x).1, fun x => (hmem x).2⟩
  · simp only [Bounded, List.mem_singleton, forall_eq]
    omega
  · exact List.forall_mem_cons.2 ⟨⟨by dsimp only; omega, hfirst.2⟩, hboundNext⟩

/-- The two parts where the cut is the end of the first range. -/
theorem rangesDivided_next {first : LiveRange} {next : List LiveRange}
    (hsep : SeparatedRanges (first :: next)) (hbound : Bounded (first :: next))
    (hfrom : first.fromPos < first.toPos) (hnext : next ≠ []) :
    RangesDivided (first :: next) [first] next first.toPos := by
  obtain ⟨cur, rest, rfl⟩ := List.exists_cons_of_ne_nil hnext
  have hspace := SeparatedRanges.cons_iff.1 hsep
  have hwhole : SeparatedRanges ([first] ++ cur :: rest) := hsep
  have hbefore : ∀ r ∈ [first], r.toPos ≤ first.toPos := by simp
  have hmem (x : Int) := hwhole.mem_cut_space (x := x) hbefore
    (Int.le_of_lt (hspace.2.1 cur List.mem_cons_self))
  refine ⟨⟨SeparatedRanges.cons_iff.2 ⟨hfrom, by simp, .nil⟩, hspace.2.2⟩, ⟨?_, hbound.tail⟩,
    ⟨by simp, by simp⟩, fun x => (hmem x).1, fun x => (hmem x).2⟩
  simp only [Bounded, List.mem_singleton, forall_eq]
  exact hbound first List.mem_cons_self

/-- The end of an interval is that of its last range, also when the first one is cut. -/
theorem calcTo_cut {first : LiveRange} {next rs : List LiveRange} {t : Int}
    (hranges : it.ranges = first :: next) (hrs : rs ≠ [])
    (hcut : rs = next ∨ rs = ⟨pos, first.toPos⟩ :: next) :
    calcTo { it with ranges := rs, cachedTo := t } = it.calcTo := by
  unfold calcTo
  rw [hranges]
  cases next with
  | nil =>
    rcases hcut with rfl | rfl
    · exact absurd rfl hrs
    · rfl
  | cons r next =>
    rcases hcut with rfl | rfl
    · rw [List.getLast?_cons_cons]
    · rw [List.getLast?_cons_cons, List.getLast?_cons_cons]

/-- Where all uses are behind the cut, the part in front has only ranges. -/
theorem WellFormed.divides {this result : LiveInterval} {t : Int} (hit : it.WellFormed)
    (huses : ∀ p ∈ it.usePositions, pos < p.1)
    (hparts : RangesDivided it.ranges result.ranges this.ranges pos)
    (hthis : this = { it with ranges := this.ranges, cachedTo := t })
    (hresult : result = { new (-1) with ranges := result.ranges }) (hcalc : this.calcTo = .ok t) :
    this.WellFormed ∧ result.WellFormed ∧ it.Divides result this pos := by
  obtain ⟨ps, hps, hsorted⟩ := hit.uses
  have hwf : this.WellFormed :=
    ⟨hparts.separated.2, hparts.bounded.2, ⟨ps, by rw [hthis, hps], hsorted⟩,
      .inr (by rw [hcalc, hthis])⟩
  have hwf' : result.WellFormed :=
    ⟨hparts.separated.1, hparts.bounded.1, ⟨[], by rw [hresult]; rfl, .nil, by simp⟩,
      .inl (by rw [hresult]; rfl)⟩
  refine ⟨hwf, hwf', hparts.mem_head, hparts.mem_tail, ?_, ?_,
    hwf'.exists_toPos hparts.ne_nil.1, hwf.exists_toPos hparts.ne_nil.2⟩
  · rw [hresult]
    exact (List.filter_eq_nil_iff.2 fun p hp => by
      have := huses p hp
      rw [decide_eq_true_eq]
      omega).symm
  · rw [hthis]
    exact (List.filter_eq_self.2 fun p hp => by
      have := huses p hp
      rw [decide_eq_true_eq]
      omega).symm

/-- The first usage of any kind is behind a position that all uses are behind. -/
theorem WellFormed.lt_firstUsage (hit : it.WellFormed) (hpos : pos < maxJint)
    (huses : ∀ p ∈ it.usePositions, pos < p.1) :
    pos < firstUsageLoop it.usePosAndKinds .noUse it.usePosAndKinds.length := by
  obtain ⟨ps, hps, hsorted⟩ := hit.uses
  simp only [usePositions, hps, usePairs_flatUses] at huses
  rw [hps, hsorted.firstUsageLoop_eq]
  cases hlast : ps.getLast? with
  | none => exact hpos
  | some p => exact huses p (List.mem_of_getLast? hlast)

/-- `split_from_start` divides the interval, too. -/
theorem WellFormed.splitFromStart_eq (hit : it.WellFormed)
    (hvirtual : it.isVirtual vregBase = true) (hinside : it.Inside pos)
    (hfirstTo : pos ≤ it.first.toPos) (huses : ∀ p ∈ it.usePositions, pos < p.1) :
    ∃ this result, it.splitFromStart vregBase pos = .ok (this, result) ∧ this.WellFormed ∧
      result.WellFormed ∧ it.Divides result this pos := by
  obtain ⟨first, next, hranges, hfirst, hfrom⟩ := hinside.first_from
  obtain ⟨-, t, ht, hlt⟩ := hinside
  obtain ⟨t', ht', hto, -, htmax⟩ := hit.toPos_eq (by simp [hranges])
  obtain rfl := Except.ok.inj (ht.symm.trans ht')
  rw [hfirst] at hfirstTo
  have hsep := hit.separated
  have hbound := hit.bounded
  rw [hranges] at hsep hbound
  have husage := hit.lt_firstUsage (by omega) huses
  have hrange : (new (-1)).addRange first.fromPos pos =
      .ok { new (-1) with ranges := [⟨first.fromPos, pos⟩] } := by
    have hmax : first.fromPos ≤ (new (-1)).first.toPos := by
      show first.fromPos ≤ maxJint
      omega
    rw [addRange, assertThat_true (by simpa using hfrom), bind_ok,
      assertThat_true (by simp [new]), bind_ok, assertThat_true (by simpa using hmax), bind_ok]
    rfl
  unfold LiveInterval.splitFromStart
  rw [assertThat_true hvirtual, bind_ok, hto, bind_ok]
  have hfirst' : LiveInterval.first { it with cachedTo := t } = first := hfirst
  have husage' : firstUsage vregBase { it with cachedTo := t } .noUse =
      .ok (firstUsageLoop it.usePosAndKinds .noUse it.usePosAndKinds.length) := by
    have hvirtual' : isVirtual vregBase { it with cachedTo := t } = true := hvirtual
    rw [firstUsage, assertThat_true hvirtual']
    rfl
  dsimp only
  rw [assertThat_true (by
      rw [fromPos, hfirst', decide_eq_true_eq]
      exact ⟨hfrom, hlt⟩), bind_ok, assertThat_true (by
      rw [hfirst', decide_eq_true_eq]
      exact ⟨hfrom, hfirstTo⟩), bind_ok, husage', bind_ok,
    assertThat_true (by simpa using husage), bind_ok, hfirst', hrange, bind_ok, hranges]
  split
  next heq =>
    have hnext : next ≠ [] := by
      rintro rfl
      simp only [calcTo, hranges, List.getLast?_singleton, Except.ok.injEq] at ht
      omega
    have htail : decide ((first :: next).tail ≠ []) = true := decide_eq_true hnext
    rw [assertThat_true htail, bind_ok]
    have hparts := rangesDivided_next hsep hbound (heq ▸ hfrom) hnext
    rw [← hranges, ← heq] at hparts
    have hcut : (⟨first.fromPos, pos⟩ : LiveRange) = first := by rw [heq]
    exact ⟨_, _, rfl, hit.divides huses (hcut ▸ hparts) rfl rfl
      ((@calcTo_cut it pos _ _ _ t hranges hnext (.inl rfl)).trans ht)⟩
  next hne =>
    have hparts := rangesDivided_first hsep hbound hfrom (show pos < first.toPos by omega)
    rw [← hranges] at hparts
    exact ⟨_, _, rfl, hit.divides huses hparts rfl rfl
      ((calcTo_cut hranges (by simp) (.inr rfl)).trans ht)⟩

/-! ## Intervals of the allocator -/

/-- An interval while its ranges and use positions are added. -/
inductive Built (vregBase : Nat) : LiveInterval → Prop
  | new (regNum : Int) : Built vregBase (new regNum)
  | addRange {it it' : LiveInterval} (fromPos toPos : Int) (hfrom : 0 ≤ fromPos)
      (hto : toPos < maxJint) (hit : Built vregBase it)
      (hrun : it.addRange fromPos toPos = .ok it') : Built vregBase it'
  | addUsePos {it it' : LiveInterval} (pos : Int) (useKind : UseKind) (hit : Built vregBase it)
      (hrun : it.addUsePos vregBase pos useKind = .ok it') : Built vregBase it'

/-- What is got from built intervals by splitting them and asking for their ends. -/
inductive Obtained (vregBase : Nat) : LiveInterval → Prop
  | built {it : LiveInterval} (hit : Built vregBase it) : Obtained vregBase it
  | setRegNum {it it' : LiveInterval} (r : Int) (hit : Obtained vregBase it)
      (hrun : it.setRegNum r = .ok it') : Obtained vregBase it'
  | toPos {it it' : LiveInterval} (t : Int) (hit : Obtained vregBase it)
      (hrun : it.toPos = .ok (t, it')) : Obtained vregBase it'
  | split {it this result : LiveInterval} (pos : Int) (hit : Obtained vregBase it)
      (hinside : it.Inside pos) (hrun : it.split vregBase pos = .ok (this, result))
      (it' : LiveInterval) (hit' : it' = this ∨ it' = result) : Obtained vregBase it'
  | splitFromStart {it this result : LiveInterval} (pos : Int) (hit : Obtained vregBase it)
      (hinside : it.Inside pos) (hfirstTo : pos ≤ it.first.toPos)
      (huses : ∀ p ∈ it.usePositions, pos < p.1)
      (hrun : it.splitFromStart vregBase pos = .ok (this, result)) (it' : LiveInterval)
      (hit' : it' = this ∨ it' = result) : Obtained vregBase it'

theorem Built.fresh (hit : Built vregBase it) : it.Fresh := by
  induction hit with
  | new regNum => exact fresh_new regNum
  | addRange fromPos toPos hfrom hto _ hrun ih => exact ih.addRange hfrom hto hrun
  | addUsePos pos useKind _ hrun ih => exact ih.addUsePos hrun

theorem Obtained.wellFormed (hit : Obtained vregBase it) : it.WellFormed := by
  induction hit with
  | built hit => exact hit.fresh.1
  | setRegNum r _ hrun ih =>
    obtain ⟨_, -, hrun⟩ := bind_eq_ok hrun
    cases hrun
    exact { ih with }
  | @toPos it it' t _ hrun ih =>
    obtain ⟨_, hcalc, -⟩ := bind_eq_ok hrun
    have hne : it.ranges ≠ [] := fun hnil => by simp [calcTo, hnil] at hcalc
    obtain ⟨t', ht', hto, -⟩ := ih.toPos_eq hne
    cases hrun.symm.trans hto
    exact ih.cache ht'
  | split pos _ hinside hrun it' hit' ih =>
    obtain ⟨_, hvirtual, -⟩ := bind_eq_ok hrun
    obtain ⟨this, result, hsplit, hthis, hresult, -⟩ :=
      ih.split_eq (of_assertThat hvirtual) hinside
    cases hrun.symm.trans hsplit
    rcases hit' with rfl | rfl
    · exact hthis
    · exact hresult
  | splitFromStart pos _ hinside hfirstTo huses hrun it' hit' ih =>
    obtain ⟨_, hvirtual, -⟩ := bind_eq_ok hrun
    obtain ⟨this, result, hsplit, hthis, hresult, -⟩ :=
      ih.splitFromStart_eq (of_assertThat hvirtual) hinside hfirstTo huses
    cases hrun.symm.trans hsplit
    rcases hit' with rfl | rfl
    · exact hthis
    · exact hresult

/-- The operations on the positions of an interval. -/
structure Exact (vregBase : Nat) (it : LiveInterval) : Prop where
  nonempty : ∀ r ∈ it.ranges, r.fromPos < r.toPos
  apart : it.ranges.Pairwise fun r r' => r.toPos < r'.fromPos
  to_ : it.ranges ≠ [] → ∃ t it', it.toPos = .ok (t, it') ∧ IsGreatest it.positions (t - 1)
  split : ∀ pos, it.isVirtual vregBase = true → it.Inside pos →
    ∃ this result, it.split vregBase pos = .ok (this, result) ∧ it.Divides this result pos
  splitFromStart : ∀ pos, it.isVirtual vregBase = true → it.Inside pos → pos ≤ it.first.toPos →
    (∀ p ∈ it.usePositions, pos < p.1) →
    ∃ this result, it.splitFromStart vregBase pos = .ok (this, result) ∧ it.Divides result this pos
  covers : ∀ opId mode, ∃ b, it.covers opId mode = .ok b ∧ (b = true ↔
    opId ∈ it.positions ∨ mode ≠ .outputMode ∧ opId - 1 ∈ it.positions)
  hasHoleBetween : ∀ holeFrom holeTo t, it.calcTo = .ok t → it.fromPos ≤ holeFrom →
    holeFrom < holeTo → holeTo ≤ t → ∃ b it', it.hasHoleBetween holeFrom holeTo = .ok (b, it') ∧
      (b = true ↔ ∃ x, holeFrom ≤ x ∧ x < holeTo ∧ x ∉ it.positions)
  intersectsAt : ∀ other, Obtained vregBase other → it.ranges ≠ [] → other.ranges ≠ [] →
    ∃ p, it.intersectsAt other = .ok p ∧ IntersectsAt it.ranges other.ranges p

theorem WellFormed.hasHoleBetween_eq (hit : it.WellFormed) {holeFrom holeTo t : Int}
    (ht : it.calcTo = .ok t) (hfrom : it.fromPos ≤ holeFrom) (hlt : holeFrom < holeTo)
    (hle : holeTo ≤ t) : ∃ b it', it.hasHoleBetween holeFrom holeTo = .ok (b, it') ∧
      (b = true ↔ ∃ x, holeFrom ≤ x ∧ x < holeTo ∧ x ∉ it.positions) := by
  have hne : it.ranges ≠ [] := fun hnil => by simp [calcTo, hnil] at ht
  obtain ⟨t', ht', hto, -⟩ := hit.toPos_eq hne
  obtain rfl := Except.ok.inj (ht.symm.trans ht')
  obtain ⟨r, hlast, rfl⟩ : ∃ r, it.ranges.getLast? = some r ∧ r.toPos = t := by
    unfold calcTo at ht
    split at ht
    next => cases ht
    next r hr => exact ⟨r, hr, Except.ok.inj ht⟩
  obtain ⟨b, hb, hiff⟩ := holeLoop_eq hit.separated hit.bounded hlt ⟨r, hlast, hle⟩
  refine ⟨b, { it with cachedTo := r.toPos }, ?_, hiff⟩
  rw [LiveInterval.hasHoleBetween, assertThat_true (by simpa using hlt), bind_ok, hto, bind_ok]
  dsimp only
  rw [assertThat_true (by rw [decide_eq_true_eq]; exact ⟨hfrom, hle⟩), bind_ok, hb]
  rfl

/-- The operations refine sets of positions. -/
theorem exact_of_obtained (hit : Obtained vregBase it) : it.Exact vregBase := by
  have hwf := hit.wellFormed
  exact {
    nonempty := hwf.separated.nonempty
    apart := hwf.separated.apart
    to_ := hwf.exists_toPos
    split := fun pos hvirtual hinside => by
      obtain ⟨this, result, hsplit, -, -, hdivides⟩ := hwf.split_eq hvirtual hinside
      exact ⟨this, result, hsplit, hdivides⟩
    splitFromStart := fun pos hvirtual hinside hfirstTo huses => by
      obtain ⟨this, result, hsplit, -, -, hdivides⟩ :=
        hwf.splitFromStart_eq hvirtual hinside hfirstTo huses
      exact ⟨this, result, hsplit, hdivides⟩
    covers := fun opId mode => coversLoop_eq hwf.separated hwf.bounded opId mode
    hasHoleBetween := fun holeFrom holeTo t ht hfrom hlt hle =>
      hwf.hasHoleBetween_eq ht hfrom hlt hle
    intersectsAt := fun other hother hne hne' => rangesIntersectAt_eq hwf.separated hwf.bounded
      hother.wellFormed.separated hother.wellFormed.bounded hne hne' }

/-- Two ranges with a use at the end of the first. -/
def twoRanges : LiveInterval := ⟨64, [⟨2, 6⟩, ⟨10, 14⟩], [12, 3, 6, 2], -1⟩

theorem exact_twoRanges : twoRanges.Exact 64 :=
  exact_of_obtained (.built
    (.addUsePos 6 .shouldHaveRegister (.addRange 2 6 (by decide) (by decide)
      (.addUsePos 12 .mustHaveRegister (.addRange 10 14 (by decide) (by decide) (.new 64) rfl)
        rfl) rfl) rfl))

end LiveInterval
end HotSpot.C1
