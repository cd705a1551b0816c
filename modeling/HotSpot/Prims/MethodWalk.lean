import HotSpot.Prims.MethodMatching
import Mathlib

/-! # The walk through the methods

What holds between the turns of the walk, and where it ends.
-/

namespace HotSpot.RedefineClasses

variable {Name Sig T : Type} {methods : List (Method Name Sig)} {m : Method Name Sig}
  {ni num : Nat}

/-! ## The invariant of the walk -/

theorem take_succ_key {l : List (Method Name Sig)} {i : Nat} (hm : l[i]? = some m) :
    (l.take (i + 1)).map Method.key = (l.take i).map Method.key ++ [m.key] := by
  rw [List.take_add_one, hm, List.map_append]
  rfl

/-- A method that has its final number. -/
def Numbered (oldMethods : List (Method Name Sig)) (count next : Nat)
    (m : Method Name Sig) : Prop :=
  (∃ o ∈ oldMethods, o.key = m.key ∧ m.idnum = o.idnum) ∨
    m.key ∉ oldMethods.map Method.key ∧ count ≤ m.idnum ∧ m.idnum < next

/-- A method in the list gets a number that no method in front of it has. -/
structure Renumbered (methods renumbered : List (Method Name Sig)) (ni : Nat) (m : Method Name Sig)
    (num : Nat) : Prop where
  body : renumbered.map Method.body = methods.map Method.body
  distinct : Distinct renumbered
  self : renumbered[ni]? = some { m with idnum := num }
  front : ∀ j < ni, ∀ p, methods[j]? = some p → p.idnum ≠ num → renumbered[j]? = some p

theorem Renumbered.length_eq {renumbered : List (Method Name Sig)}
    (h : Renumbered methods renumbered ni m num) : renumbered.length = methods.length := by
  have hlength := congrArg List.length h.body
  rwa [List.length_map, List.length_map] at hlength

theorem renumbered_renumber (hm : methods[ni]? = some m) (hdistinct : Distinct methods) :
    Renumbered methods (renumber methods ni m.idnum num) ni m num where
  body := map_renumber _ (fun _ _ => rfl) _
  distinct := distinct_renumber hm hdistinct num
  self := by
    obtain ⟨owner, -, hrenumber⟩ := renumber_spec hm num
    rw [hrenumber, if_pos rfl]
  front _ hj _ hp hnum := renumber_of_lt hm hj hp hnum

theorem Numbered.mono {oldMethods : List (Method Name Sig)} {count next next' : Nat}
    (h : Numbered oldMethods count next m) (hle : next ≤ next') :
    Numbered oldMethods count next' m :=
  h.imp_right fun ⟨hkey, hlow, hhigh⟩ => ⟨hkey, hlow, Nat.lt_of_lt_of_le hhigh hle⟩

theorem Renumbered.numbered {renumbered oldMethods : List (Method Name Sig)} {count next : Nat}
    (h : Renumbered methods renumbered ni m num)
    (hbefore : ∀ i < ni, ∀ p, methods[i]? = some p → Numbered oldMethods count next p)
    (hself : Numbered oldMethods count next { m with idnum := num })
    (happart : ∀ i < ni, ∀ p, methods[i]? = some p → p.idnum ≠ num) :
    ∀ i < ni + 1, ∀ p, renumbered[i]? = some p → Numbered oldMethods count next p := by
  intro i hi p hp
  rcases Nat.eq_or_lt_of_le (Nat.le_of_lt_succ hi) with rfl | hlt
  · obtain rfl := Option.some.inj (h.self.symm.trans hp)
    exact hself
  · have hlength := h.length_eq
    have hbound := (List.getElem?_eq_some_iff.mp hp).1
    have hq : methods[i]? = some methods[i] := List.getElem?_eq_getElem (hlength ▸ hbound)
    obtain rfl := Option.some.inj ((h.front i hlt _ hq (happart i hlt _ hq)).symm.trans hp)
    exact hbefore i hlt _ hq

theorem getElem?_of_take {methods' : List (Method Name Sig)}
    (htake : methods'.take ni = methods.take ni) {i : Nat} (hi : i < ni) :
    methods'[i]? = methods[i]? := by
  rw [← List.getElem?_take_of_lt hi, htake, List.getElem?_take_of_lt hi]

theorem Distinct.perm {methods' : List (Method Name Sig)} (h : Distinct methods)
    (hperm : methods'.Perm methods) : Distinct methods' :=
  distinct_iff.mpr ((hperm.map _).nodup_iff.mpr (distinct_iff.mp h))

theorem takeOver_renumbered {k : ScratchClass Name Sig T} (hm : k.methods[ni]? = some m)
    (hdistinct : Distinct k.methods) (old : Method Name Sig) :
    Renumbered k.methods (k.takeOver ni old m).methods ni m old.idnum := by
  unfold ScratchClass.takeOver
  split
  next => exact renumbered_renumber hm hdistinct
  next heq =>
    refine ⟨rfl, hdistinct, ?_, fun j _ p hp _ => hp⟩
    rw [← not_not.mp heq]
    exact hm

theorem allocate_renumbered {k : ScratchClass Name Sig T} (hm : k.methods[ni]? = some m)
    (hdistinct : Distinct k.methods) (num : Nat) :
    Renumbered k.methods (k.allocate ni m num).methods ni m num :=
  renumbered_renumber hm hdistinct

/-- A method that differs is refused whichever record of it is looked at. -/
theorem exists_of_body_mem {newMethods : List (Method Name Sig)} {P : Method Name Sig → Prop}
    (hP : ∀ m m', m.body = m'.body → P m → P m') (hm : m.body ∈ newMethods.map Method.body)
    (h : P m) : ∃ p ∈ newMethods, P p := by
  obtain ⟨p, hp, hbody⟩ := List.mem_map.mp hm
  exact ⟨p, hp, hP m p hbody.symm h⟩

/-- The turns that are left at most. -/
def Walk.remaining (oldMethods : List (Method Name Sig)) (w : Walk Name Sig T) : Nat :=
  oldMethods.length - w.oi + (w.scratch.methods.length - w.ni)

theorem Walk.remaining_lt {oldMethods : List (Method Name Sig)} {w w' : Walk Name Sig T}
    (hlength : w'.scratch.methods.length = w.scratch.methods.length) (hoi : w.oi ≤ w'.oi)
    (hni : w.ni ≤ w'.ni) (hmoves : w.oi < w'.oi ∧ w.oi < oldMethods.length ∨
      w.ni < w'.ni ∧ w.ni < w.scratch.methods.length) :
    w'.remaining oldMethods < w.remaining oldMethods := by
  unfold Walk.remaining
  omega

theorem Walk.countP_fates (w : Walk Name Sig T) (found : Fate Name Sig)
    (methods : List (Method Name Sig)) :
    (w.record found methods).fates.countP Fate.isAdded =
      w.fates.countP Fate.isAdded + if found.isAdded then 1 else 0 := by
  unfold Walk.record
  rw [List.countP_append, List.countP_singleton]

section

variable [LinearOrder Name] {old new : Method Name Sig}
  {oldMethods newMethods methods' : List (Method Name Sig)} {oi : Nat}
  {fates : List (Fate Name Sig)} {count : Nat}

/-- One more fate. -/
theorem Found.push (h : Found oldMethods newMethods methods oi ni fates) {f : Fate Name Sig}
    (hcorrect : f.Correct oldMethods newMethods) (hperm : methods'.Perm methods)
    (hnames : methods'.map Method.name = methods.map Method.name)
    (htake : methods'.take ni = methods.take ni) {renumbered : List (Method Name Sig)}
    (hbody : renumbered.map Method.body = methods'.map Method.body) {oi' ni' : Nat}
    (hold : (oldMethods.take oi').map Method.key =
      (oldMethods.take oi).map Method.key ++ f.oldKey.toList)
    (hnew : (methods'.take ni').map Method.key =
      (methods'.take ni).map Method.key ++ f.newKey.toList) :
    Found oldMethods newMethods renumbered oi' ni' (fates ++ [f]) := by
  have hmap : ∀ {B : Type} (g : Name × Sig × BitVec 16 → B),
      renumbered.map (fun m => g m.body) = methods'.map (fun m => g m.body) := by
    intro B g
    have hcomp := congrArg (List.map g) hbody
    rwa [List.map_map, List.map_map] at hcomp
  refine ⟨hbody ▸ (hperm.map _).trans h.body, ?_, ?_, ?_, fun f' hf' => ?_⟩
  · have hnames' : renumbered.map Method.name = methods'.map Method.name := hmap (·.1)
    rw [hnames', hnames]
    exact h.sorted
  · rw [List.filterMap_append, h.oldKeys, hold]
    cases f <;> rfl
  · have hkeys : renumbered.map Method.key = methods'.map Method.key :=
      hmap fun body => (body.1, body.2.1)
    rw [List.filterMap_append, h.newKeys, ← htake, List.map_take (l := renumbered), hkeys,
      ← List.map_take, hnew]
    cases f <;> rfl
  · rcases List.mem_append.mp hf' with hf' | hf'
    · exact h.correct f' hf'
    · rw [List.mem_singleton.mp hf']
      exact hcorrect

/-- What holds between the turns. -/
structure Inv (oldMethods newMethods : List (Method Name Sig)) (count : Nat) (w : Walk Name Sig T) :
    Prop where
  found : Found oldMethods newMethods w.scratch.methods w.oi w.ni w.fates
  allowed : ∀ f ∈ w.fates, f.Allowed
  distinct : Distinct w.scratch.methods
  numbered : ∀ i < w.ni, ∀ m, w.scratch.methods[i]? = some m →
    Numbered oldMethods count w.idnumAllocatedCount m
  counted : w.idnumAllocatedCount = count + w.fates.countP Fate.isAdded
  bound : w.idnumAllocatedCount < 2 ^ 16
  room : 0 < w.fates.countP Fate.isAdded → w.idnumAllocatedCount ≤ maxIdnum

/-- The numbers of the old methods. -/
structure OldNumbers (oldMethods : List (Method Name Sig)) (count : Nat) : Prop where
  distinct : Distinct oldMethods
  lt : ∀ o ∈ oldMethods, o.idnum < count

/-- No method in front has the number of an old method that is just matched. -/
theorem Found.idnum_ne_old (h : Found oldMethods newMethods methods oi ni fates)
    (hgiven : Given oldMethods newMethods) (hnumbers : OldNumbers oldMethods count)
    (hold : oldMethods[oi]? = some old) {next : Nat} {i : Nat} (hi : i < ni)
    {p : Method Name Sig} (hp : methods[i]? = some p)
    (hnumbered : Numbered oldMethods count next p) :
    p.idnum ≠ old.idnum := by
  intro hidnum
  have hmem := List.mem_of_getElem? hold
  rcases hnumbered with ⟨o, ho, hkey, hsame⟩ | ⟨-, hlow, -⟩
  · obtain ⟨j, hj⟩ := List.mem_iff_getElem?.mp ho
    obtain rfl := hnumbers.distinct j oi o old hj hold (hsame.symm.trans hidnum)
    obtain rfl := Option.some.inj (hj.symm.trans hold)
    refine h.new_front hgiven hold (hkey ▸ List.mem_map_of_mem ?_)
    exact List.mem_of_getElem? ((List.getElem?_take_of_lt hi).trans hp)
  · exact absurd (hnumbers.lt old hmem) (by omega)

/-- The fates count the methods that are new. -/
theorem countP_isAdded [DecidableEq Sig]
    (hcorrect : ∀ f ∈ fates, f.Correct oldMethods newMethods) :
    fates.countP Fate.isAdded = (fates.filterMap Fate.newKey).countP
      fun key => decide (key ∉ oldMethods.map Method.key) := by
  induction fates with
  | nil => rfl
  | cons f fates ih =>
    have hf := hcorrect f List.mem_cons_self
    have hrest := ih fun f' hf' => hcorrect f' (List.mem_cons_of_mem _ hf')
    cases f with
    | matched o m =>
      have hmem : m.key ∈ oldMethods.map Method.key := hf.2.2 ▸ List.mem_map_of_mem hf.1
      rw [List.countP_cons_of_neg (by simp [Fate.isAdded]), hrest,
        List.filterMap_cons_some (f := Fate.newKey) (b := m.key) rfl,
        List.countP_cons_of_neg (by simpa using hmem)]
    | added m =>
      rw [List.countP_cons_of_pos rfl, hrest,
        List.filterMap_cons_some (f := Fate.newKey) (b := m.key) rfl,
        List.countP_cons_of_pos (by simpa using hf.2)]
    | deleted o =>
      rw [List.countP_cons_of_neg (by simp [Fate.isAdded]), hrest,
        List.filterMap_cons_none rfl]

/-- The new methods without an old version. -/
def addedCount [DecidableEq Sig] (oldMethods newMethods : List (Method Name Sig)) : Nat :=
  newMethods.countP fun m => decide (m.key ∉ oldMethods.map Method.key)

theorem Found.countP_isAdded [DecidableEq Sig]
    (h : Found oldMethods newMethods methods oi ni fates) :
    fates.countP Fate.isAdded ≤ addedCount oldMethods newMethods ∧
      (methods.length ≤ ni → fates.countP Fate.isAdded = addedCount oldMethods newMethods) := by
  have htotal : addedCount oldMethods newMethods = (methods.map Method.key).countP
      fun key => decide (key ∉ oldMethods.map Method.key) := by
    rw [(perm_key_of_perm_body h.body).countP_eq, List.countP_map]
    rfl
  rw [RedefineClasses.countP_isAdded h.correct, h.newKeys, htotal]
  refine ⟨((List.take_sublist ni methods).map _).countP_le, fun hni => ?_⟩
  rw [List.take_of_length_le hni]

variable {w : Walk Name Sig T}

/-- What is known when a fate has been found. -/
structure Judged (oldMethods newMethods : List (Method Name Sig)) (count : Nat)
    (w : Walk Name Sig T) (found : Fate Name Sig) (methods : List (Method Name Sig)) : Prop where
  given : Given oldMethods newMethods
  numbers : OldNumbers oldMethods count
  inv : Inv oldMethods newMethods count w
  correct : found.Correct oldMethods newMethods
  at_cursors : found.AtCursors oldMethods methods w.oi w.ni
  perm : methods.Perm w.scratch.methods
  names : methods.map Method.name = w.scratch.methods.map Method.name
  take : methods.take w.ni = w.scratch.methods.take w.ni

namespace Judged

variable {found : Fate Name Sig}

theorem corrects (h : Judged oldMethods newMethods count w found methods) :
    ∀ f ∈ (w.record found methods).fates, f.Correct oldMethods newMethods := by
  intro f hf
  rcases List.mem_append.mp hf with hf | hf
  · exact h.inv.found.correct f hf
  · rw [List.mem_singleton.mp hf]
    exact h.correct

theorem alloweds (h : Judged oldMethods newMethods count w found methods)
    (hallowed : found.Allowed) : ∀ f ∈ (w.record found methods).fates, f.Allowed := by
  intro f hf
  rcases List.mem_append.mp hf with hf | hf
  · exact h.inv.allowed f hf
  · rw [List.mem_singleton.mp hf]
    exact hallowed

theorem distinct (h : Judged oldMethods newMethods count w found methods) : Distinct methods :=
  h.inv.distinct.perm h.perm

theorem numbered (h : Judged oldMethods newMethods count w found methods) :
    ∀ i < w.ni, ∀ m, methods[i]? = some m →
      Numbered oldMethods count w.idnumAllocatedCount m := fun i hi m hm =>
  h.inv.numbered i hi m ((getElem?_of_take h.take hi).symm.trans hm)

theorem found_front (h : Judged oldMethods newMethods count w found methods) :
    Found oldMethods newMethods methods w.oi w.ni w.fates := by
  refine ⟨(h.perm.map _).trans h.inv.found.body, ?_, h.inv.found.oldKeys, ?_, h.inv.found.correct⟩
  · rw [h.names]
    exact h.inv.found.sorted
  · rw [h.take]
    exact h.inv.found.newKeys

end Judged

variable [DecidableEq Sig]

/-- Why the classes cannot be exchanged. -/
def Refused (oldMethods newMethods : List (Method Name Sig)) (count : Nat) : Prop :=
  (∃ o ∈ oldMethods, ∃ m ∈ newMethods, o.key = m.key ∧ o.modifiersDiffer m = true) ∨
    (∃ m ∈ newMethods, m.key ∉ oldMethods.map Method.key ∧ m.isPrivateFinal = false) ∨
    (∃ o ∈ oldMethods, o.key ∉ newMethods.map Method.key ∧ o.isPrivateFinal = false) ∨
    maxIdnum - count < addedCount oldMethods newMethods

/-- Where the walk ends. -/
structure Ends (oldMethods newMethods : List (Method Name Sig)) (count : Nat) (error : JvmtiError)
    (w : Walk Name Sig T) : Prop where
  correct : ∀ f ∈ w.fates, f.Correct oldMethods newMethods
  done : error = .none → Inv oldMethods newMethods count w ∧ oldMethods.length ≤ w.oi ∧
    w.scratch.methods.length ≤ w.ni
  refused : error ≠ .none → Refused oldMethods newMethods count

/-- What a turn makes of a walk. -/
def Turn.Sound (oldMethods newMethods : List (Method Name Sig)) (count : Nat)
    (w : Walk Name Sig T) : Turn Name Sig T → Prop
  | .next w' => Inv oldMethods newMethods count w' ∧
      w'.remaining oldMethods < w.remaining oldMethods
  | .done error w' => Ends oldMethods newMethods count error w'

namespace Judged

variable {found : Fate Name Sig}

theorem matched (h : Judged oldMethods newMethods count w (.matched old new) methods) :
    (judge (w.record (.matched old new) methods) (.matched old new)).Sound oldMethods newMethods
      count w := by
  obtain ⟨hold, hnew⟩ := h.at_cursors
  by_cases hdiffer : old.modifiersDiffer new = true
  · have hjudge : judge (w.record (.matched old new) methods) (.matched old new) =
        .done .methodModifiersChanged (w.record (.matched old new) methods) := if_pos hdiffer
    rw [hjudge]
    refine ⟨h.corrects, nofun, fun _ => .inl ⟨old, h.correct.1, ?_⟩⟩
    refine exists_of_body_mem (fun m m' hbody hm => ?_) h.correct.2.1 ⟨h.correct.2.2, hdiffer⟩
    refine ⟨hm.1.trans (key_eq_of_body_eq hbody), ?_⟩
    have hflags := hm.2
    unfold Method.modifiersDiffer at hflags ⊢
    rwa [← accessFlags_eq_of_body_eq hbody]
  · have hallowed : (Fate.matched old new).Allowed := Bool.eq_false_iff.mpr hdiffer
    have hjudge : judge (w.record (.matched old new) methods) (.matched old new) = .next _ :=
      if_neg hdiffer
    rw [hjudge]
    have hr := takeOver_renumbered (k := { w.scratch with methods := methods }) hnew h.distinct old
    have hself : Numbered oldMethods count w.idnumAllocatedCount { new with idnum := old.idnum } :=
      .inl ⟨old, h.correct.1, h.correct.2.2, rfl⟩
    have hcount := w.countP_fates (.matched old new) methods
    refine ⟨⟨?_, h.alloweds hallowed, hr.distinct, ?_, ?_, h.inv.bound, ?_⟩, ?_⟩
    · refine h.inv.found.push h.correct h.perm h.names h.take hr.body ?_ ?_
      · exact take_succ_key hold
      · exact take_succ_key hnew
    · refine hr.numbered h.numbered hself fun i hi p hp => ?_
      exact h.found_front.idnum_ne_old h.given h.numbers hold hi hp (h.numbered i hi p hp)
    · exact h.inv.counted.trans (congrArg (count + ·) hcount.symm)
    · exact fun hpos => h.inv.room (Nat.lt_of_lt_of_eq hpos hcount)
    · refine Walk.remaining_lt (hr.length_eq.trans h.perm.length_eq) (Nat.le_succ _)
        (Nat.le_succ _) (.inl ⟨Nat.lt_succ_self _, (List.getElem?_eq_some_iff.mp hold).1⟩)

theorem added (h : Judged oldMethods newMethods count w (.added new) methods) :
    (judge (w.record (.added new) methods) (.added new)).Sound oldMethods newMethods count w := by
  have hnew : methods[w.ni]? = some new := h.at_cursors
  have hcount := w.countP_fates (.added new) methods
  by_cases hallowed : new.isPrivateFinal = true
  · have hfront : Found oldMethods newMethods methods w.oi (w.ni + 1)
        (w.fates ++ [.added new]) := by
      refine h.inv.found.push h.correct h.perm h.names h.take rfl ?_ (take_succ_key hnew)
      exact (List.append_nil _).symm
    have hjudge : judge (w.record (.added new) methods) (.added new) =
        if (nextMethodIdnum w.idnumAllocatedCount).1 = unsetIdnum then .done .methodAdded
          { w.record (.added new) methods with
            idnumAllocatedCount := (nextMethodIdnum w.idnumAllocatedCount).2 }
        else .next { w.record (.added new) methods with
          ni := w.ni + 1
          scratch := (w.record (.added new) methods).scratch.allocate w.ni new
            (nextMethodIdnum w.idnumAllocatedCount).1
          idnumAllocatedCount := (nextMethodIdnum w.idnumAllocatedCount).2 } :=
      if_neg (by simpa using hallowed)
    have hspec := nextMethodIdnum_spec h.inv.bound
    rw [hjudge]
    split
    next hunset =>
      rw [if_pos hunset] at hspec
      refine ⟨h.corrects, nofun, fun _ => .inr (.inr (.inr ?_))⟩
      have hle := hfront.countP_isAdded.1
      have hcounted := h.inv.counted
      have hone : (w.fates ++ [Fate.added new]).countP Fate.isAdded =
          w.fates.countP Fate.isAdded + 1 := hcount
      omega
    next hset =>
      rw [if_neg hset] at hspec
      obtain ⟨hnum, hnext, hroom⟩ := hspec
      rw [hnum, hnext]
      have hr := allocate_renumbered (k := { w.scratch with methods := methods }) hnew h.distinct
        w.idnumAllocatedCount
      have hself : Numbered oldMethods count (w.idnumAllocatedCount + 1)
          { new with idnum := w.idnumAllocatedCount } := by
        refine .inr ⟨h.correct.2, ?_, Nat.lt_succ_self _⟩
        rw [h.inv.counted]
        exact Nat.le_add_right _ _
      refine ⟨⟨?_, h.alloweds hallowed, hr.distinct, ?_, ?_, ?_, fun _ => hroom⟩, ?_⟩
      · refine h.inv.found.push h.correct h.perm h.names h.take hr.body ?_ (take_succ_key hnew)
        exact (List.append_nil _).symm
      · refine hr.numbered (fun i hi p hp => (h.numbered i hi p hp).mono (Nat.le_succ _)) hself
          fun i hi p hp => ?_
        rcases h.numbered i hi p hp with ⟨o, ho, -, hidnum⟩ | ⟨-, -, hlt⟩
        · have hlt := h.numbers.lt o ho
          have hcounted := h.inv.counted
          omega
        · exact Nat.ne_of_lt hlt
      · change w.idnumAllocatedCount + 1 =
          count + (w.record (.added new) methods).fates.countP Fate.isAdded
        rw [hcount, h.inv.counted]
        rfl
      · unfold maxIdnum at hroom
        change w.idnumAllocatedCount + 1 < 2 ^ 16
        omega
      · exact Walk.remaining_lt (hr.length_eq.trans h.perm.length_eq) (Nat.le_refl _)
          (Nat.le_succ _) (.inr ⟨Nat.lt_succ_self _,
            h.perm.length_eq ▸ (List.getElem?_eq_some_iff.mp hnew).1⟩)
  · have hjudge : judge (w.record (.added new) methods) (.added new) =
        .done .methodAdded (w.record (.added new) methods) := if_pos (by simpa using hallowed)
    rw [hjudge]
    refine ⟨h.corrects, nofun, fun _ => .inr (.inl ?_)⟩
    refine exists_of_body_mem (fun m m' hbody hm => ?_) h.correct.1
      ⟨h.correct.2, Bool.eq_false_iff.mpr hallowed⟩
    refine ⟨key_eq_of_body_eq hbody ▸ hm.1, ?_⟩
    have hflags := hm.2
    unfold Method.isPrivateFinal at hflags ⊢
    rwa [← accessFlags_eq_of_body_eq hbody]

theorem deleted (h : Judged oldMethods newMethods count w (.deleted old) methods) :
    (judge (w.record (.deleted old) methods) (.deleted old)).Sound oldMethods newMethods
      count w := by
  have hold : oldMethods[w.oi]? = some old := h.at_cursors
  have hcount := w.countP_fates (.deleted old) methods
  by_cases hallowed : old.isPrivateFinal = true
  · have hjudge : judge (w.record (.deleted old) methods) (.deleted old) = .next _ :=
      if_neg (by simpa using hallowed)
    rw [hjudge]
    refine ⟨⟨?_, h.alloweds hallowed, h.distinct, h.numbered, ?_, h.inv.bound, ?_⟩, ?_⟩
    · refine h.inv.found.push h.correct h.perm h.names h.take rfl ?_ ?_
      · exact take_succ_key hold
      · exact (List.append_nil _).symm
    · exact h.inv.counted.trans (congrArg (count + ·) hcount.symm)
    · exact fun hpos => h.inv.room (Nat.lt_of_lt_of_eq hpos hcount)
    · exact Walk.remaining_lt h.perm.length_eq (Nat.le_succ _) (Nat.le_refl _)
        (.inl ⟨Nat.lt_succ_self _, (List.getElem?_eq_some_iff.mp hold).1⟩)
  · have hjudge : judge (w.record (.deleted old) methods) (.deleted old) =
        .done .methodDeleted (w.record (.deleted old) methods) := if_pos (by simpa using hallowed)
    rw [hjudge]
    exact ⟨h.corrects, nofun, fun _ => .inr (.inr (.inl ⟨old, h.correct.1, h.correct.2,
      Bool.eq_false_iff.mpr hallowed⟩))⟩

end Judged

/-- One turn of the walk. -/
theorem Inv.turn (h : Inv oldMethods newMethods count w) (hgiven : Given oldMethods newMethods)
    (hnumbers : OldNumbers oldMethods count) :
    (turn oldMethods w).Sound oldMethods newMethods count w := by
  unfold RedefineClasses.turn
  cases hfate : fate oldMethods w.scratch.methods w.oi w.ni with
  | none =>
    obtain ⟨hold, hnew⟩ := fate_none hfate
    exact ⟨h.found.correct, fun _ => ⟨h, hold, hnew⟩, fun hne => absurd rfl hne⟩
  | some result =>
    obtain ⟨found, methods⟩ := result
    obtain ⟨hcorrect, hat, hperm, hnames, htake⟩ := fate_spec h.found hgiven hfate
    have hjudged : Judged oldMethods newMethods count w found methods :=
      ⟨hgiven, hnumbers, h, hcorrect, hat, hperm, hnames, htake⟩
    cases found with
    | matched => exact hjudged.matched
    | added => exact hjudged.added
    | deleted => exact hjudged.deleted

/-- The walk ends. -/
theorem Inv.walk (h : Inv oldMethods newMethods count w) (hgiven : Given oldMethods newMethods)
    (hnumbers : OldNumbers oldMethods count) {fuel : Nat}
    (hfuel : w.remaining oldMethods < fuel) :
    ∃ error w', walk oldMethods fuel w = some (error, w') ∧
      Ends oldMethods newMethods count error w' := by
  induction fuel generalizing w with
  | zero => exact absurd hfuel (Nat.not_lt_zero _)
  | succ fuel ih =>
    have hturn := h.turn hgiven hnumbers
    unfold RedefineClasses.walk
    cases hresult : RedefineClasses.turn oldMethods w with
    | done error w' =>
      rw [hresult] at hturn
      exact ⟨error, w', rfl, hturn⟩
    | next w' =>
      rw [hresult] at hturn
      exact ih hturn.1 (Nat.lt_of_lt_of_le hturn.2 (Nat.le_of_lt_succ hfuel))

end

/-! ## The whole walk -/

section

variable [LinearOrder Name] [DecidableEq Sig] {oldMethods newMethods : List (Method Name Sig)}
  {count : Nat} {w : Walk Name Sig T}

/-- What became of the methods. -/
structure Classified (oldMethods newMethods : List (Method Name Sig))
    (fates : List (Fate Name Sig)) : Prop where
  same : ∀ old new, .matched old new ∈ fates → old.key = new.key
  matched : ∀ key, (∃ old new, .matched old new ∈ fates ∧ new.key = key) ↔
    key ∈ oldMethods.map Method.key ∧ key ∈ newMethods.map Method.key
  added : ∀ key, (∃ new, .added new ∈ fates ∧ new.key = key) ↔
    key ∈ newMethods.map Method.key ∧ key ∉ oldMethods.map Method.key
  deleted : ∀ key, (∃ old, .deleted old ∈ fates ∧ old.key = key) ↔
    key ∈ oldMethods.map Method.key ∧ key ∉ newMethods.map Method.key

/-- The new class after a walk without an error. -/
structure Normalized (oldMethods newMethods : List (Method Name Sig)) (count : Nat)
    (w : Walk Name Sig T) : Prop where
  classified : Classified oldMethods newMethods w.fates
  perm : (w.scratch.methods.map Method.body).Perm (newMethods.map Method.body)
  sorted : (w.scratch.methods.map Method.name).Pairwise (· ≤ ·)
  matched : ∀ m ∈ w.scratch.methods, ∀ o ∈ oldMethods, o.key = m.key → m.idnum = o.idnum
  added : ∀ m ∈ w.scratch.methods, m.key ∉ oldMethods.map Method.key → count ≤ m.idnum
  distinct : (w.scratch.methods.map Method.idnum).Nodup

omit [LinearOrder Name] [DecidableEq Sig] in
theorem eq_of_key_eq {l : List (Method Name Sig)} (hnodup : (l.map Method.key).Nodup)
    {m m' : Method Name Sig} (hm : m ∈ l) (hm' : m' ∈ l) (hkey : m.key = m'.key) : m = m' :=
  List.inj_on_of_nodup_map hnodup hm hm' hkey

omit [DecidableEq Sig] in
/-- When the cursors are at the ends, every method has its fate. -/
theorem Inv.classified (h : Inv oldMethods newMethods count w)
    (hold : oldMethods.length ≤ w.oi) (hnew : w.scratch.methods.length ≤ w.ni) :
    Classified oldMethods newMethods w.fates := by
  have holdKeys := h.found.oldKeys
  have hnewKeys := h.found.newKeys
  rw [List.take_of_length_le hold] at holdKeys
  rw [List.take_of_length_le hnew] at hnewKeys
  have hnewMem : ∀ key, key ∈ newMethods.map Method.key ↔ ∃ f ∈ w.fates, f.newKey = some key := by
    intro key
    rw [← (perm_key_of_perm_body h.found.body).mem_iff, ← hnewKeys, List.mem_filterMap]
  have holdMem : ∀ key, key ∈ oldMethods.map Method.key ↔ ∃ f ∈ w.fates, f.oldKey = some key := by
    intro key
    rw [← holdKeys, List.mem_filterMap]
  refine ⟨fun old new hf => (h.found.correct _ hf).2.2, fun key => ⟨?_, ?_⟩, fun key => ⟨?_, ?_⟩,
    fun key => ⟨?_, ?_⟩⟩
  · rintro ⟨old, new, hf, rfl⟩
    exact ⟨(holdMem _).mpr ⟨_, hf, congrArg some (h.found.correct _ hf).2.2⟩,
      (hnewMem _).mpr ⟨_, hf, rfl⟩⟩
  · rintro ⟨hinOld, hinNew⟩
    obtain ⟨f, hf, hkey⟩ := (hnewMem key).mp hinNew
    cases f with
    | matched old new => exact ⟨old, new, hf, Option.some.inj hkey⟩
    | added new =>
      obtain rfl := Option.some.inj hkey
      exact absurd hinOld (h.found.correct _ hf).2
    | deleted old => cases hkey
  · rintro ⟨new, hf, rfl⟩
    exact ⟨(hnewMem _).mpr ⟨_, hf, rfl⟩, (h.found.correct _ hf).2⟩
  · rintro ⟨hinNew, hout⟩
    obtain ⟨f, hf, hkey⟩ := (hnewMem key).mp hinNew
    cases f with
    | matched old new =>
      obtain rfl := Option.some.inj hkey
      have hcorrect := h.found.correct _ hf
      exact absurd (hcorrect.2.2 ▸ List.mem_map_of_mem hcorrect.1) hout
    | added new => exact ⟨new, hf, Option.some.inj hkey⟩
    | deleted old => cases hkey
  · rintro ⟨old, hf, rfl⟩
    exact ⟨(holdMem _).mpr ⟨_, hf, rfl⟩, (h.found.correct _ hf).2⟩
  · rintro ⟨hinOld, hout⟩
    obtain ⟨f, hf, hkey⟩ := (holdMem key).mp hinOld
    cases f with
    | matched old new =>
      obtain rfl := Option.some.inj hkey
      have hcorrect := h.found.correct _ hf
      exact absurd (hcorrect.2.2 ▸ key_mem_of_body_mem hcorrect.2.1) hout
    | added new => cases hkey
    | deleted old => exact ⟨old, hf, Option.some.inj hkey⟩

omit [DecidableEq Sig] in
theorem Inv.normalized (h : Inv oldMethods newMethods count w)
    (hgiven : Given oldMethods newMethods) (hold : oldMethods.length ≤ w.oi)
    (hnew : w.scratch.methods.length ≤ w.ni) : Normalized oldMethods newMethods count w := by
  have hnumbered : ∀ m ∈ w.scratch.methods,
      Numbered oldMethods count w.idnumAllocatedCount m := by
    intro m hm
    obtain ⟨i, hi⟩ := List.mem_iff_getElem?.mp hm
    exact h.numbered i (Nat.lt_of_lt_of_le (List.getElem?_eq_some_iff.mp hi).1 hnew) m hi
  refine ⟨h.classified hold hnew, h.found.body, h.found.sorted, fun m hm o ho hkey => ?_,
    fun m hm hout => ?_, distinct_iff.mp h.distinct⟩
  · rcases hnumbered m hm with ⟨o', ho', hkey', hidnum⟩ | ⟨hout, -⟩
    · obtain rfl := eq_of_key_eq hgiven.oldKeys ho' ho (hkey'.trans hkey.symm)
      exact hidnum
    · exact absurd (hkey ▸ List.mem_map_of_mem ho) hout
  · rcases hnumbered m hm with ⟨o, ho, hkey, -⟩ | ⟨-, hle, -⟩
    · exact absurd (hkey ▸ List.mem_map_of_mem ho) hout
    · exact hle

/-- A walk that ends without an error has checked everything. -/
theorem Inv.not_refused (h : Inv oldMethods newMethods count w)
    (hgiven : Given oldMethods newMethods) (hold : oldMethods.length ≤ w.oi)
    (hnew : w.scratch.methods.length ≤ w.ni) : ¬ Refused oldMethods newMethods count := by
  have hclassified := h.classified hold hnew
  have hflags : ∀ p ∈ newMethods, ∀ m : Method Name Sig, m.body ∈ newMethods.map Method.body →
      m.key = p.key → m.accessFlags = p.accessFlags := by
    intro p hp m hm hkey
    obtain ⟨q, hq, hbody⟩ := List.mem_map.mp hm
    obtain rfl := eq_of_key_eq hgiven.newKeys hq hp ((key_eq_of_body_eq hbody).trans hkey)
    exact (accessFlags_eq_of_body_eq hbody).symm
  rintro (⟨o, ho, m, hm, hkey, hdiffer⟩ | ⟨m, hm, hout, hnot⟩ | ⟨o, ho, hout, hnot⟩ | hroom)
  · obtain ⟨o', m', hf, hkey'⟩ := (hclassified.matched m.key).mpr
      ⟨hkey ▸ List.mem_map_of_mem ho, List.mem_map_of_mem hm⟩
    have hcorrect := h.found.correct _ hf
    have hallowed : o'.modifiersDiffer m' = false := h.allowed _ hf
    obtain rfl := eq_of_key_eq hgiven.oldKeys hcorrect.1 ho
      (hcorrect.2.2.trans (hkey'.trans hkey.symm))
    unfold Method.modifiersDiffer at hallowed hdiffer
    rw [hflags m hm m' hcorrect.2.1 hkey', hdiffer] at hallowed
    cases hallowed
  · obtain ⟨m', hf, hkey⟩ := (hclassified.added m.key).mpr ⟨List.mem_map_of_mem hm, hout⟩
    have hallowed : m'.isPrivateFinal = true := h.allowed _ hf
    unfold Method.isPrivateFinal at hallowed hnot
    rw [hflags m hm m' (h.found.correct _ hf).1 hkey, hnot] at hallowed
    cases hallowed
  · obtain ⟨o', hf, hkey⟩ := (hclassified.deleted o.key).mpr ⟨List.mem_map_of_mem ho, hout⟩
    have hallowed : o'.isPrivateFinal = true := h.allowed _ hf
    obtain rfl := eq_of_key_eq hgiven.oldKeys (h.found.correct _ hf).1 ho hkey
    rw [hnot] at hallowed
    cases hallowed
  · have hadded := h.found.countP_isAdded.2 hnew
    have hcounted := h.counted
    have hle := h.room
    omega

/-- The walk before its first turn. -/
def Walk.start (scratch : ScratchClass Name Sig T) (count : Nat) : Walk Name Sig T :=
  ⟨0, 0, scratch, count, []⟩

omit [DecidableEq Sig] in
theorem inv_start {scratch : ScratchClass Name Sig T} (hgiven : Given oldMethods scratch.methods)
    (hinitial : ∀ (i : Nat) (m : Method Name Sig), scratch.methods[i]? = some m → m.idnum = i)
    (hcount : count < 2 ^ 16) :
    Inv oldMethods scratch.methods count (Walk.start scratch count) where
  found := ⟨.refl _, hgiven.newSorted, rfl, rfl, fun _ hf => absurd hf List.not_mem_nil⟩
  allowed _ hf := absurd hf List.not_mem_nil
  distinct i j m m' hm hm' heq := by rw [← hinitial i m hm, heq, hinitial j m' hm']
  numbered i hi := absurd hi (Nat.not_lt_zero i)
  counted := rfl
  bound := hcount
  room hpos := absurd hpos (Nat.lt_irrefl 0)

/-- The walk ends; it ends with an error exactly when the classes have to be refused, and without
one every method has the number that it should have. -/
theorem walk_normalizes {scratch : ScratchClass Name Sig T}
    (hgiven : Given oldMethods scratch.methods)
    (hinitial : ∀ (i : Nat) (m : Method Name Sig), scratch.methods[i]? = some m → m.idnum = i)
    (hnumbers : OldNumbers oldMethods count) (hcount : count < 2 ^ 16) :
    ∃ error w, walk oldMethods (oldMethods.length + scratch.methods.length + 1)
        (Walk.start scratch count) = some (error, w) ∧
      (∀ f ∈ w.fates, f.Correct oldMethods scratch.methods) ∧
      (error ≠ .none ↔ Refused oldMethods scratch.methods count) ∧
      (error = .none → Normalized oldMethods scratch.methods count w) := by
  have hinv := inv_start hgiven hinitial hcount
  have hfuel : (Walk.start scratch count).remaining oldMethods <
      oldMethods.length + scratch.methods.length + 1 := Nat.lt_succ_self _
  obtain ⟨error, w, hwalk, hends⟩ := hinv.walk hgiven hnumbers hfuel
  refine ⟨error, w, hwalk, hends.correct, ⟨hends.refused, fun hrefused hnone => ?_⟩,
    fun hnone => ?_⟩
  · obtain ⟨hinv', hold, hnew⟩ := hends.done hnone
    exact hinv'.not_refused hgiven hold hnew hrefused
  · obtain ⟨hinv', hold, hnew⟩ := hends.done hnone
    exact hinv'.normalized hgiven hold hnew

end

def oldOverloads : List (Method Nat Nat) := [⟨1, 10, 1, 3⟩, ⟨1, 11, 1, 0⟩]

/-- Two overloads in another order, and a method that is added. -/
def newOverloads : ScratchClass Nat Nat Nat where
  methods := [⟨1, 11, 1, 0⟩, ⟨1, 10, 1, 1⟩, ⟨2, 10, 0x000A, 2⟩]
  methodsAnnotations := none
  methodsParameterAnnotations := none
  methodsDefaultAnnotations := none
  idnumAllocatedCount := 3

theorem walk_normalizes_overloads :
    ∃ error w, walk oldOverloads 6 (Walk.start newOverloads 4) =
        some (error, w) ∧
      (∀ f ∈ w.fates, f.Correct oldOverloads newOverloads.methods) ∧
      (error ≠ .none ↔ Refused oldOverloads newOverloads.methods 4) ∧
      (error = .none → Normalized oldOverloads newOverloads.methods 4 w) := by
  have hgiven : Given oldOverloads newOverloads.methods :=
    ⟨by decide, by decide, by decide, by decide⟩
  have hnumbers : OldNumbers oldOverloads 4 := ⟨distinct_iff.mpr (by decide), by decide⟩
  refine walk_normalizes hgiven (fun i m hm => ?_) hnumbers (by decide)
  have hall : ∀ i (hi : i < newOverloads.methods.length), newOverloads.methods[i].idnum = i := by
    decide
  obtain ⟨hi, rfl⟩ := List.getElem?_eq_some_iff.mp hm
  exact hall i hi

end HotSpot.RedefineClasses
