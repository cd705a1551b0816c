import Mathlib.Data.List.Pairwise
import Mathlib.Data.Nat.Basic
import Mathlib.Logic.Function.Basic
import HotSpot.Memory.CardCleaning

/-! # Scanning cards sequentially

`non_clean_card_iterate_work` looks for runs of cards that are not clean, and
`ClearNoncleanCardWrapper` cleans the cards of a run and hands it on. Addresses count words, and a
card has the number of its bytes above `byte_map_base`.
-/

namespace HotSpot

/-! ## Regions -/

structure MemRegion where
  start : Nat
  wordSize : Nat
  deriving DecidableEq, Repr

namespace MemRegion

def endWord (mr : MemRegion) : Nat := mr.start + mr.wordSize

def last (mr : MemRegion) : Nat := mr.start + mr.wordSize - 1

/-- `MemRegion(HeapWord* start, HeapWord* end)` -/
def ofBounds (start stop : Nat) : MemRegion := ⟨start, stop - start⟩

def intersection (mr mr2 : MemRegion) : MemRegion :=
  let resStart := max mr.start mr2.start
  let resEnd := min mr.endWord mr2.endWord
  if resStart < resEnd then ofBounds resStart resEnd else ⟨0, 0⟩

def Contains (mr : MemRegion) (p : Nat) : Prop := mr.start ≤ p ∧ p < mr.endWord

instance (mr : MemRegion) (p : Nat) : Decidable (mr.Contains p) :=
  inferInstanceAs (Decidable (_ ∧ _))

def Disjoint (mr mr2 : MemRegion) : Prop := ∀ p, mr.Contains p → ¬ mr2.Contains p

@[simp] theorem endWord_ofBounds {start stop : Nat} (h : start ≤ stop) :
    (ofBounds start stop).endWord = stop := Nat.add_sub_cancel' h

theorem contains_ofBounds {start stop p : Nat} (h : start ≤ stop) :
    (ofBounds start stop).Contains p ↔ start ≤ p ∧ p < stop := by
  unfold Contains
  rw [endWord_ofBounds h]
  rfl

theorem intersection_eq {mr mr2 : MemRegion} {start stop : Nat}
    (hstart : max mr.start mr2.start = start) (hstop : min mr.endWord mr2.endWord = stop)
    (hlt : start < stop) : mr.intersection mr2 = ofBounds start stop := by
  unfold intersection
  simp only [hstart, hstop]
  exact if_pos hlt

theorem contains_intersection {mr mr2 : MemRegion} {p : Nat} :
    (mr.intersection mr2).Contains p ↔ mr.Contains p ∧ mr2.Contains p := by
  unfold intersection Contains
  simp only
  split
  next hlt =>
    rw [endWord_ofBounds (Nat.le_of_lt hlt)]
    unfold ofBounds
    simp only
    omega
  next hge =>
    unfold endWord
    simp only
    unfold endWord at hge
    omega

end MemRegion

namespace CardTable

/-! ## Cards and addresses -/

def cardSizeInWords : Nat := 64

def byteFor (p : Nat) : Nat := p / cardSizeInWords

def addrFor (entry : Nat) : Nat := entry * cardSizeInWords

/-- The cards, and the regions that the dirty card closure was applied to. -/
structure Scan where
  cards : Nat → Int
  applied : List MemRegion

/-! ## The wrapper -/

/-- `clear_card` without parallel threads -/
def clearCard (cards : Nat → Int) (entry : Nat) : Bool × (Nat → Int) :=
  (true, Function.update cards entry cleanCard)

/-- A window that is not empty is processed. -/
def Scan.process (s : Scan) (startOfNonClean endOfNonClean : Nat) : Scan :=
  if startOfNonClean < endOfNonClean then
    { s with applied := s.applied ++ [.ofBounds startOfNonClean endOfNonClean] }
  else s

/-- The loop over the cards from `first`, with those left. -/
def walk (first : Nat) : Nat → Scan → Nat → Nat → Scan
  | 0, s, startOfNonClean, endOfNonClean => s.process startOfNonClean endOfNonClean
  | left + 1, s, startOfNonClean, endOfNonClean =>
    let entry := first + left
    let cur := addrFor entry
    let (cleared, cards) := clearCard s.cards entry
    let s := { s with cards := cards }
    if !cleared then
      -- a card that was clean ends the window
      walk first left (s.process startOfNonClean endOfNonClean) cur cur
    else walk first left s cur endOfNonClean

/-- `ClearNoncleanCardWrapper::do_MemRegion` -/
def clearNoncleanCards (mr : MemRegion) (s : Scan) : Scan :=
  walk (byteFor mr.start) (byteFor mr.last + 1 - byteFor mr.start) s mr.endWord mr.endWord

/-! ## The iteration -/

/-- How many cards in front of those that are left to `limit` belong to the run. -/
def nonCleanBefore (cards : Nat → Int) (limit : Nat) : Nat → Nat
  | 0 => 0
  | left + 1 => if cards (limit + left) ≠ cleanCard then nonCleanBefore cards limit left + 1 else 0

/-- The loop that cleans the dirty cards of a run. -/
def cleanDirty (curEntry nonCleanCards : Nat) (cards : Nat → Int) : Nat → Int :=
  (List.range nonCleanCards).foldl (fun cards i =>
    if cardIsDirtyWrtGenIter (cards (curEntry + i)) then
      Function.update cards (curEntry + i) cleanCard
    else cards) cards

section

variable (clear : Bool) (cl : MemRegion → Scan → Scan)

/-- The loop over the cards of a region, with those left above `limit`. -/
def iterateCards (mri : MemRegion) (limit : Nat) : Nat → Nat → Scan → Scan
  | 0, _, s => s
  | _ + 1, 0, s => s
  | fuel + 1, left + 1, s =>
    if s.cards (limit + left) ≠ cleanCard then
      let more := nonCleanBefore s.cards limit left
      let curEntry := limit + left - more
      let nonCleanCards := more + 1
      let curCards : MemRegion := ⟨addrFor curEntry, nonCleanCards * cardSizeInWords⟩
      let dirtyRegion := curCards.intersection mri
      let s := if clear then { s with cards := cleanDirty curEntry nonCleanCards s.cards } else s
      iterateCards mri limit fuel (left - more) (cl dirtyRegion s)
    else iterateCards mri limit fuel left s

/-- What happens for one of the covered regions. -/
def iterateRegion (mr : MemRegion) (s : Scan) (covered : MemRegion) : Scan :=
  let mri := mr.intersection covered
  if 0 < mri.wordSize then
    let limit := byteFor mri.start
    let cards := byteFor mri.last + 1 - limit
    iterateCards clear cl mri limit cards cards s
  else s

/-- `non_clean_card_iterate_work` without parallel threads -/
def nonCleanCardIterateWork (covered : List MemRegion) (mr : MemRegion) (s : Scan) : Scan :=
  covered.foldl (iterateRegion clear cl mr) s

end

/-! ## What the wrapper does -/

/-- The cards with those from `first` on clean. -/
def cleanRange (first count : Nat) (cards : Nat → Int) (c : Nat) : Int :=
  if first ≤ c ∧ c < first + count then cleanCard else cards c

/-- Every card that is left is cleaned, and one window is processed. -/
theorem walk_eq (first left : Nat) (s : Scan) (startOfNonClean endOfNonClean : Nat) :
    walk first left s startOfNonClean endOfNonClean =
      Scan.process ⟨cleanRange first left s.cards, s.applied⟩
        (if left = 0 then startOfNonClean else addrFor first) endOfNonClean := by
  induction left generalizing s startOfNonClean with
  | zero =>
    have hcards : cleanRange first 0 s.cards = s.cards :=
      funext fun c => if_neg (by omega)
    rw [hcards]
    rfl
  | succ left ih =>
    change walk first left ⟨_, s.applied⟩ (addrFor (first + left)) endOfNonClean = _
    have hcards : cleanRange first left (Function.update s.cards (first + left) cleanCard) =
        cleanRange first (left + 1) s.cards := by
      funext c
      unfold cleanRange
      rcases Nat.lt_trichotomy c (first + left) with hlt | rfl | hgt
      · rw [Function.update_of_ne (by omega)]
        exact if_congr (by omega) rfl rfl
      · rw [Function.update_self, ite_self, if_pos (by omega)]
      · rw [Function.update_of_ne (by omega), if_neg (by omega), if_neg (by omega)]
    rw [ih]
    simp only [hcards, Nat.add_eq_zero_iff, Nat.one_ne_zero, and_false, if_false]
    split
    next hzero =>
      subst hzero
      rfl
    next => rfl

theorem clearNoncleanCards_eq {mr : MemRegion} {first : Nat} (hstart : mr.start = addrFor first)
    (hsize : 0 < mr.wordSize) (s : Scan) :
    clearNoncleanCards mr s =
      ⟨cleanRange first (byteFor mr.last + 1 - first) s.cards, s.applied ++ [mr]⟩ := by
  have hfirst : byteFor mr.start = first := by
    rw [hstart]
    exact Nat.mul_div_cancel first (by decide)
  have hle : first ≤ byteFor mr.last := by
    rw [← hfirst]
    exact Nat.div_le_div_right (by unfold MemRegion.last; omega)
  unfold clearNoncleanCards
  rw [walk_eq, hfirst, if_neg (by omega), ← hstart]
  unfold Scan.process
  rw [if_pos (by unfold MemRegion.endWord; omega)]
  have hmr : MemRegion.ofBounds mr.start mr.endWord = mr := by
    unfold MemRegion.ofBounds MemRegion.endWord
    rw [Nat.add_sub_cancel_left]
  rw [hmr]

/-! ## Covering -/

theorem byteFor_lt_iff {p c : Nat} : byteFor p < c ↔ p < addrFor c :=
  Nat.div_lt_iff_lt_mul (by decide)

theorem le_byteFor_iff {p c : Nat} : c ≤ byteFor p ↔ addrFor c ≤ p :=
  Nat.le_div_iff_mul_le (by decide)

theorem addrFor_byteFor {p : Nat} (h : cardSizeInWords ∣ p) : addrFor (byteFor p) = p :=
  Nat.div_mul_cancel h

/-- The regions `new` are the words of `P` on cards that are not clean, and these are cleaned. -/
structure Covers (P : Nat → Prop) (cards cards' : Nat → Int) (new : List MemRegion) : Prop where
  disjoint : new.Pairwise MemRegion.Disjoint
  union : ∀ p, (∃ a ∈ new, a.Contains p) ↔ P p ∧ cards (byteFor p) ≠ cleanCard
  cleaned : ∀ c, cards c ≠ cleanCard → (∃ p, P p ∧ byteFor p = c) → cards' c = cleanCard
  unchanged : ∀ c, ¬ (cards c ≠ cleanCard ∧ ∃ p, P p ∧ byteFor p = c) → cards' c = cards c

variable {P Q : Nat → Prop} {cards cards' cards₁ cards₂ : Nat → Int}
  {new new₁ new₂ : List MemRegion}

theorem Covers.of_false (hP : ∀ p, ¬ P p) : Covers P cards cards [] where
  disjoint := .nil
  union p := ⟨fun ⟨_, ha, _⟩ => absurd ha List.not_mem_nil, fun ⟨hp, _⟩ => absurd hp (hP p)⟩
  cleaned := fun _ _ ⟨p, hp, _⟩ => absurd hp (hP p)
  unchanged _ _ := rfl

/-- Only words on cards that are not clean matter. -/
theorem Covers.congr (h : Covers P cards cards' new)
    (hPQ : ∀ p, cards (byteFor p) ≠ cleanCard → (P p ↔ Q p)) : Covers Q cards cards' new where
  disjoint := h.disjoint
  union p := (h.union p).trans (and_congr_left (hPQ p))
  cleaned := by
    rintro c hc ⟨p, hp, rfl⟩
    exact h.cleaned _ hc ⟨p, (hPQ p hc).mpr hp, rfl⟩
  unchanged c hc := by
    refine h.unchanged c ?_
    rintro ⟨hne, p, hp, rfl⟩
    exact hc ⟨hne, p, (hPQ p hne).mp hp, rfl⟩

/-- Two parts that do not share a card. -/
theorem Covers.append (h : Covers P cards cards₁ new₁) (h' : Covers Q cards₁ cards₂ new₂)
    (happart : ∀ p q, P p → Q q → byteFor p ≠ byteFor q) :
    Covers (fun p => P p ∨ Q p) cards cards₂ (new₁ ++ new₂) := by
  have hsame : ∀ q, Q q → cards₁ (byteFor q) = cards (byteFor q) := fun q hq =>
    h.unchanged _ fun ⟨_, p, hp, hcard⟩ => happart p q hp hq hcard
  refine ⟨?_, fun p => ?_, fun c hc hp => ?_, fun c hc => ?_⟩
  · refine List.pairwise_append.mpr ⟨h.disjoint, h'.disjoint, fun a ha b hb p hpa hpb => ?_⟩
    have hP := ((h.union p).mp ⟨a, ha, hpa⟩).1
    have hQ := ((h'.union p).mp ⟨b, hb, hpb⟩).1
    exact happart p p hP hQ rfl
  · constructor
    · rintro ⟨a, ha, hpa⟩
      rcases List.mem_append.mp ha with ha | ha
      · obtain ⟨hP, hne⟩ := (h.union p).mp ⟨a, ha, hpa⟩
        exact ⟨.inl hP, hne⟩
      · obtain ⟨hQ, hne⟩ := (h'.union p).mp ⟨a, ha, hpa⟩
        exact ⟨.inr hQ, hsame p hQ ▸ hne⟩
    · rintro ⟨hP | hQ, hne⟩
      · obtain ⟨a, ha, hpa⟩ := (h.union p).mpr ⟨hP, hne⟩
        exact ⟨a, List.mem_append_left _ ha, hpa⟩
      · obtain ⟨a, ha, hpa⟩ := (h'.union p).mpr ⟨hQ, (hsame p hQ).symm ▸ hne⟩
        exact ⟨a, List.mem_append_right _ ha, hpa⟩
  · obtain ⟨p, hP | hQ, rfl⟩ := hp
    · have hclean := h.cleaned _ hc ⟨p, hP, rfl⟩
      rw [h'.unchanged _ fun ⟨hne, _⟩ => hne hclean, hclean]
    · exact h'.cleaned _ ((hsame p hQ).symm ▸ hc) ⟨p, hQ, rfl⟩
  · have hfirst := h.unchanged c fun ⟨hne, p, hP, hcard⟩ => hc ⟨hne, p, .inl hP, hcard⟩
    rw [h'.unchanged c fun ⟨hne, p, hQ, hcard⟩ => hc ⟨hfirst ▸ hne, p, .inr hQ, hcard⟩, hfirst]

/-! ## The cards of a region -/

theorem nonCleanBefore_spec (cards : Nat → Int) (limit left : Nat) :
    nonCleanBefore cards limit left ≤ left ∧
      ∀ c, limit + left - nonCleanBefore cards limit left ≤ c → c < limit + left →
        cards c ≠ cleanCard := by
  induction left with
  | zero => exact ⟨Nat.le_refl 0, fun c hlow hhigh => by simp [nonCleanBefore] at hlow; omega⟩
  | succ left ih =>
    unfold nonCleanBefore
    split
    next hne =>
      refine ⟨Nat.succ_le_succ ih.1, fun c hlow hhigh => ?_⟩
      rcases Nat.eq_or_lt_of_le (Nat.le_of_lt_succ hhigh) with rfl | hlt
      · exact hne
      · exact ih.2 c (by omega) hlt
    next => exact ⟨Nat.zero_le _, fun c hlow hhigh => by omega⟩

/-- The loop that cleans the dirty cards only touches the cards of the run. -/
theorem cleanDirty_of_not_mem {curEntry nonCleanCards c : Nat}
    (hc : ¬ (curEntry ≤ c ∧ c < curEntry + nonCleanCards)) (cards : Nat → Int) :
    cleanDirty curEntry nonCleanCards cards c = cards c := by
  unfold cleanDirty
  induction nonCleanCards with
  | zero => rfl
  | succ n ih =>
    rw [List.range_succ, List.foldl_append, List.foldl_cons, List.foldl_nil]
    split
    · rw [Function.update_of_ne (by omega)]
      exact ih (by omega)
    · exact ih (by omega)

theorem cleanRange_cleanDirty (curEntry nonCleanCards : Nat) (cards : Nat → Int) :
    cleanRange curEntry nonCleanCards (cleanDirty curEntry nonCleanCards cards) =
      cleanRange curEntry nonCleanCards cards := by
  funext c
  unfold cleanRange
  split
  next => rfl
  next hc => exact cleanDirty_of_not_mem hc cards

section

variable {mri : MemRegion} {limit : Nat}

/-- The part of a region on some of its cards. -/
def OnCards (mri : MemRegion) (first count : Nat) (p : Nat) : Prop :=
  mri.Contains p ∧ first ≤ byteFor p ∧ byteFor p < first + count

/-- A run of cards, clipped to the region. -/
def runRegion (mri : MemRegion) (curEntry count : Nat) : MemRegion :=
  .ofBounds (addrFor curEntry) (min (addrFor (curEntry + count)) mri.endWord)

theorem contains_runRegion {curEntry count p : Nat} (hstart : mri.start ≤ addrFor curEntry)
    (hend : addrFor curEntry ≤ mri.endWord) :
    (runRegion mri curEntry count).Contains p ↔ OnCards mri curEntry count p := by
  have hle : addrFor curEntry ≤ addrFor (curEntry + count) :=
    Nat.mul_le_mul_right _ (Nat.le_add_right _ _)
  unfold runRegion OnCards
  rw [MemRegion.contains_ofBounds (Nat.le_min.mpr ⟨hle, hend⟩), le_byteFor_iff, byteFor_lt_iff]
  unfold MemRegion.Contains
  omega

/-- A run is not empty, and ends where its last card does. -/
theorem runRegion_bounds {curEntry more : Nat} (hlast : addrFor (curEntry + more) < mri.endWord) :
    (runRegion mri curEntry (more + 1)).endWord =
        min (addrFor (curEntry + (more + 1))) mri.endWord ∧
      0 < (runRegion mri curEntry (more + 1)).wordSize := by
  have hhigh : addrFor (curEntry + (more + 1)) = addrFor (curEntry + more) + 64 :=
    Nat.succ_mul _ _
  have hcur : addrFor curEntry ≤ addrFor (curEntry + more) :=
    Nat.mul_le_mul_right _ (Nat.le_add_right _ _)
  refine ⟨MemRegion.endWord_ofBounds (by omega), ?_⟩
  change 0 < min (addrFor (curEntry + (more + 1))) mri.endWord - addrFor curEntry
  omega

/-- A run is cleaned and handed on. -/
theorem clearRun {curEntry more : Nat} (hstart : mri.start ≤ addrFor curEntry)
    (hlast : addrFor (curEntry + more) < mri.endWord) (s : Scan) :
    clearNoncleanCards
      ((⟨addrFor curEntry, (more + 1) * cardSizeInWords⟩ : MemRegion).intersection mri) s =
      ⟨cleanRange curEntry (more + 1) s.cards,
        s.applied ++ [runRegion mri curEntry (more + 1)]⟩ := by
  have hhigh : addrFor (curEntry + (more + 1)) = addrFor (curEntry + more) + 64 :=
    Nat.succ_mul _ _
  have hcur : addrFor curEntry ≤ addrFor (curEntry + more) :=
    Nat.mul_le_mul_right _ (Nat.le_add_right _ _)
  have hregion : (⟨addrFor curEntry, (more + 1) * cardSizeInWords⟩ : MemRegion).intersection mri =
      runRegion mri curEntry (more + 1) := by
    refine MemRegion.intersection_eq (Nat.max_eq_left hstart) ?_ (by omega)
    unfold MemRegion.endWord addrFor
    rw [← Nat.add_mul]
  obtain ⟨hend, hsize⟩ := runRegion_bounds hlast
  have hbyte : byteFor (runRegion mri curEntry (more + 1)).last = curEntry + more := by
    change byteFor ((runRegion mri curEntry (more + 1)).endWord - 1) = _
    rw [hend]
    refine Nat.le_antisymm (Nat.le_of_lt_succ (byteFor_lt_iff.mpr ?_)) (le_byteFor_iff.mpr ?_)
    · change _ < addrFor (curEntry + (more + 1))
      omega
    · omega
  rw [hregion, clearNoncleanCards_eq rfl hsize, hbyte,
    show curEntry + more + 1 - curEntry = more + 1 by omega]

theorem covers_run {curEntry count : Nat} {cards : Nat → Int}
    (hstart : mri.start ≤ addrFor curEntry) (hcount : 0 < count)
    (hlast : addrFor (curEntry + count - 1) < mri.endWord)
    (hnonclean : ∀ c, curEntry ≤ c → c < curEntry + count → cards c ≠ cleanCard) :
    Covers (OnCards mri curEntry count) cards (cleanRange curEntry count cards)
      [runRegion mri curEntry count] where
  disjoint := List.pairwise_singleton _ _
  union p := by
    have hcur : addrFor curEntry ≤ addrFor (curEntry + count - 1) :=
      Nat.mul_le_mul_right _ (by omega)
    simp only [List.mem_singleton, exists_eq_left]
    rw [contains_runRegion hstart (by omega)]
    exact ⟨fun h => ⟨h, hnonclean _ h.2.1 h.2.2⟩, fun h => h.1⟩
  cleaned := by
    rintro c _ ⟨p, ⟨-, hlow, hhigh⟩, rfl⟩
    exact if_pos ⟨hlow, hhigh⟩
  unchanged c hc := by
    have hcard : byteFor (addrFor c) = c := Nat.mul_div_cancel c (by decide)
    refine if_neg fun ⟨hlow, hhigh⟩ => hc ⟨hnonclean c hlow hhigh, addrFor c, ⟨⟨?_, ?_⟩, ?_⟩, hcard⟩
    · exact Nat.le_trans hstart (Nat.mul_le_mul_right _ hlow)
    · exact Nat.lt_of_le_of_lt (Nat.mul_le_mul_right _ (by omega)) hlast
    · rw [hcard]
      exact ⟨hlow, hhigh⟩

/-- Cleaning the dirty cards of a run before the run is cleaned makes no difference. -/
theorem ifClear_cleanDirty (clear : Bool) (curEntry nonCleanCards : Nat) (s : Scan) :
    (if clear then ⟨cleanDirty curEntry nonCleanCards s.cards, s.applied⟩ else s : Scan).applied =
      s.applied ∧
    cleanRange curEntry nonCleanCards
      (if clear then ⟨cleanDirty curEntry nonCleanCards s.cards, s.applied⟩ else s : Scan).cards =
      cleanRange curEntry nonCleanCards s.cards := by
  cases clear with
  | false => exact ⟨rfl, rfl⟩
  | true => exact ⟨rfl, cleanRange_cleanDirty _ _ _⟩

/-- The loop over the first cards of a region, from the last of them. -/
theorem iterateCards_spec (clear : Bool) (hstart : mri.start = addrFor limit) {fuel left : Nat}
    (hfuel : left ≤ fuel) (hleft : left = 0 ∨ addrFor (limit + left - 1) < mri.endWord) (s : Scan) :
    ∃ cards' new, iterateCards clear clearNoncleanCards mri limit fuel left s =
        ⟨cards', s.applied ++ new⟩ ∧
      Covers (OnCards mri limit left) s.cards cards' new ∧
      new.Pairwise (fun a b => b.endWord ≤ a.start) ∧
      ∀ a ∈ new, 0 < a.wordSize ∧ a.endWord ≤ addrFor (limit + left) := by
  induction fuel generalizing left s with
  | zero =>
    obtain rfl : left = 0 := by omega
    refine ⟨s.cards, [], ?_, .of_false fun p hp => ?_, .nil, by simp⟩
    · rw [List.append_nil]
      rfl
    · unfold OnCards at hp
      omega
  | succ fuel ih =>
    cases left with
    | zero =>
      refine ⟨s.cards, [], ?_, .of_false fun p hp => ?_, .nil, by simp⟩
      · rw [List.append_nil]
        rfl
      · unfold OnCards at hp
        omega
    | succ left =>
      unfold iterateCards
      split
      next hne =>
        obtain ⟨hmore, hbefore⟩ := nonCleanBefore_spec s.cards limit left
        generalize nonCleanBefore s.cards limit left = more at hmore hbefore ⊢
        have hlast : addrFor (limit + left) < mri.endWord := hleft.resolve_left (by omega)
        have hcur : limit + left - more + more = limit + left := by omega
        have hstart' : mri.start ≤ addrFor (limit + left - more) :=
          hstart ▸ Nat.mul_le_mul_right _ (by omega)
        have hnonclean : ∀ c, limit + left - more ≤ c → c < limit + left - more + (more + 1) →
            s.cards c ≠ cleanCard := by
          intro c hlow hhigh
          rcases Nat.eq_or_lt_of_le (show c ≤ limit + left by omega) with rfl | hlt
          · exact hne
          · exact hbefore c hlow hlt
        have hend : addrFor (limit + left - more + (more + 1) - 1) < mri.endWord := by
          rw [← Nat.add_assoc, Nat.add_sub_cancel, hcur]
          exact hlast
        have hrun := covers_run hstart' (Nat.succ_pos more) hend hnonclean
        obtain ⟨happlied, hcleaned⟩ :=
          ifClear_cleanDirty clear (limit + left - more) (more + 1) s
        simp only
        generalize (if clear = true then _ else s) = s' at happlied hcleaned ⊢
        rw [clearRun hstart' (by rw [hcur]; exact hlast), happlied, hcleaned]
        obtain ⟨cards', new, hrest, hcovers, hdecreasing, hbounds⟩ :=
          ih (show left - more ≤ fuel by omega) (by
            refine (Nat.eq_zero_or_pos (left - more)).imp_right fun hpos => ?_
            exact Nat.lt_of_le_of_lt (Nat.mul_le_mul_right _ (by omega)) hlast)
            ⟨cleanRange (limit + left - more) (more + 1) s.cards,
              s.applied ++ [runRegion mri (limit + left - more) (more + 1)]⟩
        have hrest' : limit + (left - more) = limit + left - more := by omega
        rw [hrest'] at hbounds
        refine ⟨cards', _, hrest.trans (by rw [List.append_assoc]), ?_, ?_, ?_⟩
        · refine (hrun.append hcovers fun p q hp hq => ?_).congr fun p _ => ?_
          · exact Nat.ne_of_gt (Nat.lt_of_lt_of_le (hrest' ▸ hq.2.2) hp.2.1)
          · unfold OnCards
            rw [← and_or_left]
            exact and_congr_right fun _ => by omega
        · exact List.pairwise_cons.mpr ⟨fun b hb => (hbounds b hb).2, hdecreasing⟩
        · intro a ha
          rcases List.mem_cons.mp ha with rfl | ha
          · have hbound := @runRegion_bounds mri _ _ (by rw [hcur]; exact hlast)
            refine ⟨hbound.2, hbound.1 ▸ Nat.le_trans (Nat.min_le_left _ _) ?_⟩
            exact Nat.mul_le_mul_right _ (by omega)
          · obtain ⟨hsize, hend⟩ := hbounds a ha
            exact ⟨hsize, Nat.le_trans hend (Nat.mul_le_mul_right _ (by omega))⟩
      next hclean =>
        obtain ⟨cards', new, hrun, hcovers, hdecreasing, hbounds⟩ :=
          ih (show left ≤ fuel by omega) (by
            refine (Nat.eq_zero_or_pos left).imp_right fun hpos => ?_
            have hlast := hleft.resolve_left (by omega)
            exact Nat.lt_of_le_of_lt (Nat.mul_le_mul_right _ (by omega)) hlast) s
        refine ⟨cards', new, hrun, hcovers.congr fun p hp => ?_, hdecreasing, fun a ha => ?_⟩
        · have hother : byteFor p ≠ limit + left := fun heq => hclean (heq ▸ hp)
          exact and_congr_right fun _ => by omega
        · obtain ⟨hsize, hend⟩ := hbounds a ha
          exact ⟨hsize, Nat.le_trans hend (Nat.mul_le_mul_right _ (by omega))⟩

end

/-! ## The covered regions -/

/-- Regions within a covered region, in decreasing address order. -/
structure Decreasing (covered : MemRegion) (group : List MemRegion) : Prop where
  order : group.Pairwise fun a b => b.endWord ≤ a.start
  pos : ∀ a ∈ group, 0 < a.wordSize
  within : ∀ a ∈ group, ∀ p, a.Contains p → covered.Contains p

theorem iterateRegion_spec (clear : Bool) {mr covered : MemRegion}
    (hmr : cardSizeInWords ∣ mr.start) (hcovered : cardSizeInWords ∣ covered.start) (s : Scan) :
    ∃ cards' new, iterateRegion clear clearNoncleanCards mr s covered =
        ⟨cards', s.applied ++ new⟩ ∧
      Covers (fun p => mr.Contains p ∧ covered.Contains p) s.cards cards' new ∧
      Decreasing covered new := by
  unfold iterateRegion
  simp only
  split
  next hsize =>
    have hstart : addrFor (byteFor (mr.intersection covered).start) =
        (mr.intersection covered).start := by
      refine addrFor_byteFor ?_
      unfold MemRegion.intersection at hsize ⊢
      simp only at hsize ⊢
      split
      next =>
        change cardSizeInWords ∣ max mr.start covered.start
        rcases Nat.le_total mr.start covered.start with hle | hle
        · rwa [Nat.max_eq_right hle]
        · rwa [Nat.max_eq_left hle]
      next hempty =>
        rw [if_neg hempty] at hsize
        exact absurd hsize (Nat.lt_irrefl 0)
    have hmem : ∀ p, (mr.intersection covered).Contains p ↔ mr.Contains p ∧ covered.Contains p :=
      fun p => MemRegion.contains_intersection
    generalize mr.intersection covered = mri at hsize hstart hmem
    have hlast : byteFor mri.start ≤ byteFor mri.last :=
      Nat.div_le_div_right (by unfold MemRegion.last; omega)
    have hbefore : mri.last < mri.endWord := by
      unfold MemRegion.last MemRegion.endWord
      omega
    obtain ⟨cards', new, hrun, hcovers, horder, hbounds⟩ := iterateCards_spec clear hstart.symm
      (Nat.le_refl (byteFor mri.last + 1 - byteFor mri.start)) (.inr (by
        have hcard : byteFor mri.start + (byteFor mri.last + 1 - byteFor mri.start) - 1 =
            byteFor mri.last := by omega
        rw [hcard]
        exact Nat.lt_of_le_of_lt (Nat.div_mul_le_self _ _) hbefore)) s
    have hcovers' : Covers (fun p => mr.Contains p ∧ covered.Contains p) s.cards cards' new := by
      refine hcovers.congr fun p _ => (Iff.trans ?_ (hmem p))
      refine ⟨fun h => h.1, fun h => ⟨h, Nat.div_le_div_right h.1, ?_⟩⟩
      have hle : byteFor p ≤ byteFor mri.last :=
        Nat.div_le_div_right (by
          have hend := h.2
          unfold MemRegion.endWord at hend
          unfold MemRegion.last
          omega)
      omega
    refine ⟨cards', new, hrun, hcovers', horder, fun a ha => (hbounds a ha).1, fun a ha p hp => ?_⟩
    exact ((hcovers'.union p).mp ⟨a, ha, hp⟩).1.2
  next hsize =>
    refine ⟨s.cards, [], by rw [List.append_nil], .of_false fun p hp => ?_, .nil, by simp, by simp⟩
    have hcontains := MemRegion.contains_intersection.mpr hp
    unfold MemRegion.Contains MemRegion.endWord at hcontains
    omega

/-- Disjoint regions that start with a card do not share one. -/
theorem byteFor_ne_of_disjoint {r r' : MemRegion} (hdisjoint : r.Disjoint r')
    (hr : cardSizeInWords ∣ r.start) (hr' : cardSizeInWords ∣ r'.start) {p q : Nat}
    (hp : r.Contains p) (hq : r'.Contains q) : byteFor p ≠ byteFor q := by
  intro hcard
  have hfirst : ∀ {r : MemRegion} {p : Nat}, cardSizeInWords ∣ r.start → r.Contains p →
      r.Contains (addrFor (byteFor p)) := by
    intro r p hr hp
    refine ⟨?_, Nat.lt_of_le_of_lt (Nat.div_mul_le_self _ _) hp.2⟩
    rw [← addrFor_byteFor hr]
    exact Nat.mul_le_mul_right _ (Nat.div_le_div_right hp.1)
  exact hdisjoint _ (hfirst hr hp) (hcard ▸ hfirst hr' hq)

/-- The closure was applied to what the covered regions have of a region on cards that were not
clean, and these cards are clean now. -/
structure ScansNonClean (covered : List MemRegion) (mr : MemRegion) (cards : Nat → Int) (s : Scan) :
    Prop where
  covers : Covers (fun p => mr.Contains p ∧ ∃ r ∈ covered, r.Contains p) cards s.cards s.applied
  decreasing : ∃ groups : List (List MemRegion), s.applied = groups.flatten ∧
    List.Forall₂ Decreasing covered groups

theorem iterateRegions_spec (clear : Bool) {mr : MemRegion} (hmr : cardSizeInWords ∣ mr.start)
    {covered : List MemRegion} (hdisjoint : covered.Pairwise MemRegion.Disjoint)
    (hcovered : ∀ r ∈ covered, cardSizeInWords ∣ r.start) (s : Scan) :
    ∃ cards' groups, nonCleanCardIterateWork clear clearNoncleanCards covered mr s =
        ⟨cards', s.applied ++ List.flatten groups⟩ ∧
      Covers (fun p => mr.Contains p ∧ ∃ r ∈ covered, r.Contains p) s.cards cards' groups.flatten ∧
      List.Forall₂ Decreasing covered groups := by
  induction covered generalizing s with
  | nil =>
    refine ⟨s.cards, [], ?_, .of_false ?_, .nil⟩
    · rw [List.flatten_nil, List.append_nil]
      rfl
    · rintro p ⟨-, r, hr, -⟩
      exact absurd hr List.not_mem_nil
  | cons r covered ih =>
    obtain ⟨hapart, hdisjoint⟩ := List.pairwise_cons.mp hdisjoint
    have hr := hcovered r List.mem_cons_self
    obtain ⟨cards₁, new, hfirst, hcovers, hdecreasing⟩ := iterateRegion_spec clear hmr hr s
    obtain ⟨cards', groups, hrest, hcovers', hgroups⟩ :=
      ih hdisjoint (fun r' hr' => hcovered r' (List.mem_cons_of_mem _ hr'))
        ⟨cards₁, s.applied ++ new⟩
    refine ⟨cards', new :: groups, ?_, ?_, .cons hdecreasing hgroups⟩
    · unfold nonCleanCardIterateWork at hrest ⊢
      rw [List.foldl_cons, hfirst, hrest, List.flatten_cons, List.append_assoc]
    · refine (hcovers.append hcovers' ?_).congr fun p _ => ?_
      · rintro p q ⟨-, hp⟩ ⟨-, r', hr', hq⟩
        exact byteFor_ne_of_disjoint (hapart r' hr') hr
          (hcovered r' (List.mem_cons_of_mem _ hr')) hp hq
      · rw [← and_or_left]
        simp

/-- Sequential scanning finds exactly the cards that are not clean, wherever the covered regions
start with a card. -/
theorem nonCleanCardIterateWork_scans (clear : Bool) {mr : MemRegion}
    (hmr : cardSizeInWords ∣ mr.start) {covered : List MemRegion}
    (hdisjoint : covered.Pairwise MemRegion.Disjoint)
    (hcovered : ∀ r ∈ covered, cardSizeInWords ∣ r.start) (cards : Nat → Int) :
    ScansNonClean covered mr cards
      (nonCleanCardIterateWork clear clearNoncleanCards covered mr ⟨cards, []⟩) := by
  obtain ⟨cards', groups, hrun, hcovers, hgroups⟩ :=
    iterateRegions_spec clear hmr hdisjoint hcovered ⟨cards, []⟩
  rw [hrun]
  exact ⟨hcovers, groups, rfl, hgroups⟩

theorem nonCleanCardIterateWork_scans_twoRegions :
    ScansNonClean [⟨0, 128⟩, ⟨192, 70⟩] ⟨64, 192⟩ (fun c => if c = 2 then cleanCard else dirtyCard)
      (nonCleanCardIterateWork false clearNoncleanCards [⟨0, 128⟩, ⟨192, 70⟩] ⟨64, 192⟩
        ⟨fun c => if c = 2 then cleanCard else dirtyCard, []⟩) := by
  refine nonCleanCardIterateWork_scans false (by decide) ?_ (by decide) _
  rw [List.pairwise_pair]
  intro p hp hp'
  unfold MemRegion.Contains MemRegion.endWord at hp hp'
  simp only at hp hp'
  omega

/-- A covered region that starts in the middle of a card: the words before it are scanned too. -/
theorem not_scansNonClean_middle :
    cardSizeInWords ∣ (⟨0, 64⟩ : MemRegion).start ∧
    [(⟨32, 32⟩ : MemRegion)].Pairwise MemRegion.Disjoint ∧
    ¬ ScansNonClean [⟨32, 32⟩] ⟨0, 64⟩ (fun _ => dirtyCard)
      (nonCleanCardIterateWork false clearNoncleanCards [⟨32, 32⟩] ⟨0, 64⟩
        ⟨fun _ => dirtyCard, []⟩) := by
  refine ⟨by decide, List.pairwise_singleton _ _, fun h => ?_⟩
  have happlied : (nonCleanCardIterateWork false clearNoncleanCards [⟨32, 32⟩] ⟨0, 64⟩
      ⟨fun _ => dirtyCard, []⟩).applied = [⟨0, 64⟩] := by
    decide
  have hword := (h.covers.union 0).mp ⟨⟨0, 64⟩, by rw [happlied]; simp, by decide⟩
  obtain ⟨r, hr, hcontains⟩ := hword.1.2
  obtain rfl := List.mem_singleton.mp hr
  exact absurd hcontains (by decide)

end CardTable

end HotSpot
