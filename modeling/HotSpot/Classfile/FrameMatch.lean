import HotSpot.Classfile.Verifier
import HotSpot.Classfile.StackMapDecode

/-! # Frames and activations

When the slots of an activation are as the types of a frame say. What it means for a word to have
a type that takes one slot is left open (`ok`); the two slots of a long or double belong to one
value.
-/

namespace HotSpot

open VerificationType CurrentFrame

/-- The contents of a slot, with the bits that tie the two slots of a long or double together. -/
inductive Word where
  | int | float
  | long (bits : BitVec 64) | long2 (bits : BitVec 64)
  | double (bits : BitVec 64) | double2 (bits : BitVec 64)
  /-- null, or the number of an object -/
  | ref (object : Option Nat)
  | undefined
  deriving DecidableEq, Repr

/-- A type of two slots. -/
inductive Wide where
  | long | double
  deriving DecidableEq, Repr

namespace Wide

def first : Wide → VerificationType
  | long => .long
  | double => .double

def second : Wide → VerificationType
  | long => .long2
  | double => .double2

def word : Wide → BitVec 64 → Word
  | long => .long
  | double => .double

def word2 : Wide → BitVec 64 → Word
  | long => .long2
  | double => .double2

@[simp] theorem isCategory1_first (k : Wide) : k.first.isCategory1 = false := by cases k <;> rfl

@[simp] theorem isCategory1_second (k : Wide) : k.second.isCategory1 = false := by cases k <;> rfl

theorem first_ne_second (k k' : Wide) : k.first ≠ k'.second := by cases k <;> cases k' <;> decide

theorem first_injective {k k' : Wide} (h : k.first = k'.first) : k = k' := by
  cases k <;> cases k' <;> first | rfl | cases h

theorem second_injective {k k' : Wide} (h : k.second = k'.second) : k = k' := by
  cases k <;> cases k' <;> first | rfl | cases h

theorem isFirstHalf_iff {t : VerificationType} :
    isFirstHalf t = true ↔ ∃ k : Wide, t = k.first := by
  simp only [isFirstHalf, decide_eq_true_eq]
  constructor
  · rintro (rfl | rfl)
    · exact ⟨.double, rfl⟩
    · exact ⟨.long, rfl⟩
  · rintro ⟨k, rfl⟩
    cases k <;> simp [first]

theorem isSecondHalf_iff {t : VerificationType} :
    isSecondHalf t = true ↔ ∃ k : Wide, t = k.second := by
  simp only [isSecondHalf, decide_eq_true_eq]
  constructor
  · rintro (rfl | rfl)
    · exact ⟨.double, rfl⟩
    · exact ⟨.long, rfl⟩
  · rintro ⟨k, rfl⟩
    cases k <;> simp [second]

end Wide

/-! ## Types of a frame -/

namespace VerificationType

/-- A type that a slot can have: not one of an array element or return value, and no query. -/
def isSlotType : VerificationType → Bool
  | boolean | byte | short | char => false
  | referenceCheck | category1Check | category2Check | category2SecondCheck => false
  | _ => true

end VerificationType

/-- The two halves of a long or double stand next to each other. -/
structure PairedLocals (ts : List VerificationType) : Prop where
  second_of_first : ∀ {i : Nat} {k : Wide}, ts[i]? = some k.first → ts[i + 1]? = some k.second
  first_of_second : ∀ {i : Nat} {k : Wide}, ts[i]? = some k.second →
    ∃ j, i = j + 1 ∧ ts[j]? = some k.first

variable {ok ok' : VerificationType → Word → Prop}

/-! ## The locals -/

/-- The words of the locals have the types of a frame. -/
structure LocalsMatch (ok : VerificationType → Word → Prop) (ts : List VerificationType)
    (ws : List Word) : Prop where
  length_eq : ts.length = ws.length
  paired : PairedLocals ts
  one : ∀ {i : Nat} {t : VerificationType} {w : Word}, ts[i]? = some t → ws[i]? = some w →
    t.isCategory1 = true → ok t w
  two : ∀ {i : Nat} (k : Wide), ts[i]? = some k.first → ∃ bits,
    ws[i]? = some (k.word bits) ∧ ws[i + 1]? = some (k.word2 bits)

namespace LocalsMatch

variable {ts : List VerificationType} {ws : List Word}

theorem map (hmatch : LocalsMatch ok ts ws) {g : VerificationType → VerificationType}
    (hone : ∀ t, t.isCategory1 = true → (g t).isCategory1 = true)
    (htwo : ∀ t, t.isCategory1 = false → g t = t)
    (hok : ∀ t ∈ ts, ∀ w, t.isCategory1 = true → ok t w → ok' (g t) w) :
    LocalsMatch ok' (ts.map g) ws := by
  have hhalf {i : Nat} {t : VerificationType} (hcat : t.isCategory1 = false) :
      (ts.map g)[i]? = some t ↔ ts[i]? = some t := by
    rw [List.getElem?_map, Option.map_eq_some_iff]
    constructor
    · rintro ⟨t₀, ht₀, rfl⟩
      have hcat₀ : t₀.isCategory1 = false := by
        by_contra hne
        rw [hone t₀ (by simpa using hne)] at hcat
        cases hcat
      rwa [htwo t₀ hcat₀]
    · exact fun ht => ⟨t, ht, htwo t hcat⟩
  refine ⟨by rw [List.length_map, hmatch.length_eq], ⟨?_, ?_⟩, ?_, ?_⟩
  · intro i k hi
    rw [hhalf k.isCategory1_first] at hi
    exact (hhalf k.isCategory1_second).2 (hmatch.paired.second_of_first hi)
  · intro i k hi
    rw [hhalf k.isCategory1_second] at hi
    obtain ⟨j, rfl, hj⟩ := hmatch.paired.first_of_second hi
    exact ⟨j, rfl, (hhalf k.isCategory1_first).2 hj⟩
  · intro i t w ht hw hcat
    rw [List.getElem?_map, Option.map_eq_some_iff] at ht
    obtain ⟨t₀, ht₀, rfl⟩ := ht
    have hcat₀ : t₀.isCategory1 = true := by
      by_contra hne
      rw [htwo t₀ (by simpa using hne)] at hcat
      exact hne hcat
    exact hok t₀ (List.mem_of_getElem? ht₀) w hcat₀ (hmatch.one ht₀ hw hcat₀)
  · intro i k hi
    exact hmatch.two k ((hhalf k.isCategory1_first).1 hi)

end LocalsMatch

/-! ## Stores -/

/-- The types `ts` become `ts'` when the slots from `first` up to `last` are overwritten: the
halves that this cuts off are lost. -/
structure Overwrites (first last : Nat) (ts ts' : List VerificationType) : Prop where
  length_eq : ts'.length = ts.length
  half : ∀ {i : Nat} {t : VerificationType}, i < first ∨ last < i → t.isCategory1 = false →
    (ts'[i]? = some t ↔ ts[i]? = some t ∧
      ¬(i = last + 1 ∧ ∃ k : Wide, ts[last]? = some k.first) ∧
      ¬(i + 1 = first ∧ ∃ k : Wide, ts[first]? = some k.second))
  one : ∀ {i : Nat} {t : VerificationType}, i < first ∨ last < i → ts'[i]? = some t →
    t.isCategory1 = true → ts[i]? = some t ∨ t = .bogus

theorem getD_eq_iff {ts : List VerificationType} {i : Nat} {t : VerificationType}
    (ht : t ≠ .bogus) : ts.getD i .bogus = t ↔ ts[i]? = some t := by
  rw [List.getD_eq_getElem?_getD]
  cases ts[i]? with
  | none => simpa using ht.symm
  | some t' => simp

theorem isFirstHalf_getD {ts : List VerificationType} {i : Nat} :
    isFirstHalf (ts.getD i .bogus) = true ↔ ∃ k : Wide, ts[i]? = some k.first := by
  rw [Wide.isFirstHalf_iff]
  exact exists_congr fun k => getD_eq_iff (by cases k <;> decide)

theorem isSecondHalf_getD {ts : List VerificationType} {i : Nat} :
    isSecondHalf (ts.getD i .bogus) = true ↔ ∃ k : Wide, ts[i]? = some k.second := by
  rw [Wide.isSecondHalf_iff]
  exact exists_congr fun k => getD_eq_iff (by cases k <;> decide)

/-- The first slot behind `j` is lost when a first half at `j` is overwritten. -/
def CutAfter (j : Nat) (ts : List VerificationType) (i : Nat) : Prop :=
  i = j + 1 ∧ ∃ k : Wide, ts[j]? = some k.first

def CutBefore (j : Nat) (ts : List VerificationType) (i : Nat) : Prop :=
  i + 1 = j ∧ ∃ k : Wide, ts[j]? = some k.second

theorem getElem?_cutAfter {ts : List VerificationType} {i j : Nat} {t : VerificationType} :
    (cutAfter j ts)[i]? = some t ↔
      (CutAfter j ts i ∧ t = .bogus ∧ i < ts.length) ∨ (¬CutAfter j ts i ∧ ts[i]? = some t) := by
  unfold cutAfter CutAfter
  by_cases hfirst : ∃ k : Wide, ts[j]? = some k.first
  · rw [if_pos (isFirstHalf_getD.2 hfirst), List.getElem?_set]
    by_cases hi : j + 1 = i
    · subst hi
      by_cases hlt : j + 1 < ts.length <;> simp [hlt, hfirst, @eq_comm _ .bogus t]
    · simp [hi, Ne.symm hi]
  · rw [if_neg (fun h => hfirst (isFirstHalf_getD.1 h))]
    simp [hfirst]

theorem getElem?_cutBefore {ts : List VerificationType} {i j : Nat} {t : VerificationType}
    (hij : i ≠ j) :
    (cutBefore j ts)[i]? = some t ↔
      (CutBefore j ts i ∧ t = .bogus ∧ i < ts.length) ∨ (¬CutBefore j ts i ∧ ts[i]? = some t) := by
  unfold cutBefore CutBefore
  by_cases hsecond : ∃ k : Wide, ts[j]? = some k.second
  · rw [if_pos (isSecondHalf_getD.2 hsecond), List.getElem?_set]
    by_cases hi : i + 1 = j
    · subst hi
      by_cases hlt : i < ts.length <;> simp [hlt, hsecond, @eq_comm _ .bogus t]
    · simp [hi, show j - 1 ≠ i by omega]
  · rw [if_neg (fun h => hsecond (isSecondHalf_getD.1 h))]
    simp [hsecond]

/-- What `set_local` and `set_local_2` do to the other slots. -/
theorem overwrites_cut {first last : Nat} {ts ts' : List VerificationType} (hle : first ≤ last)
    (hlength : ts'.length = ts.length)
    (hget : ∀ i, i < first ∨ last < i → ts'[i]? = (cutBefore first (cutAfter last ts))[i]?) :
    Overwrites first last ts ts' := by
  have hfirst (i : Nat) : CutBefore first (cutAfter last ts) i ↔ CutBefore first ts i := by
    refine and_congr_right fun _ => exists_congr fun k => ?_
    rw [getElem?_cutAfter]
    simp [CutAfter, show first ≠ last + 1 by omega]
  refine ⟨hlength, ?_, ?_⟩
  · intro i t hi hcat
    have hbogus : t ≠ .bogus := by rintro rfl; cases hcat
    rw [hget i hi, getElem?_cutBefore (by omega), getElem?_cutAfter, hfirst]
    simp only [hbogus, false_and, and_false, false_or, CutAfter, CutBefore]
    tauto
  · intro i t hi ht hcat
    rw [hget i hi, getElem?_cutBefore (by omega), getElem?_cutAfter] at ht
    rcases ht with ⟨-, hbogus, -⟩ | ⟨-, ⟨-, hbogus, -⟩ | ⟨-, ht⟩⟩
    · exact .inr hbogus
    · exact .inr hbogus
    · exact .inl ht

namespace Overwrites

variable {first last : Nat} {ts ts' : List VerificationType}

/-- Both halves of a value that is left are left. -/
theorem pair_iff (hover : Overwrites first last ts ts') (hpaired : PairedLocals ts)
    (hle : first ≤ last) {i : Nat} {k : Wide} (hi : i + 1 < first ∨ last < i) :
    (ts'[i]? = some k.first ↔ ts[i]? = some k.first) ∧
      (ts'[i + 1]? = some k.second ↔ ts[i + 1]? = some k.second) := by
  constructor
  · rw [hover.half (by omega) k.isCategory1_first]
    refine ⟨fun h => h.1, fun h => ⟨h, ?_, by omega⟩⟩
    rintro ⟨rfl, k', hk'⟩
    have hsecond := hpaired.second_of_first hk'
    rw [h] at hsecond
    exact Wide.first_ne_second k k' (Option.some.inj hsecond)
  · rw [hover.half (by omega) k.isCategory1_second]
    refine ⟨fun h => h.1, fun h => ⟨h, by omega, ?_⟩⟩
    rintro ⟨hlast, k', hk'⟩
    obtain ⟨j, hj, hfirst⟩ := hpaired.first_of_second hk'
    obtain rfl : j = i + 1 := by omega
    rw [h] at hfirst
    exact Wide.first_ne_second k' k (Option.some.inj hfirst).symm

/-- A first half that is left lies with its second half on one side. -/
theorem side_of_first (hover : Overwrites first last ts ts') (hpaired : PairedLocals ts)
    {i : Nat} {k : Wide} (hi : i < first ∨ last < i) (ht : ts'[i]? = some k.first) :
    i + 1 < first ∨ last < i := by
  obtain ⟨hfirst, -, hcut⟩ := (hover.half hi k.isCategory1_first).1 ht
  have hne : i + 1 ≠ first := fun heq => hcut ⟨heq, k, heq ▸ hpaired.second_of_first hfirst⟩
  omega

/-- So does a second half. -/
theorem side_of_second (hover : Overwrites first last ts ts') (hpaired : PairedLocals ts)
    {i : Nat} {k : Wide} (hi : i < first ∨ last < i) (ht : ts'[i]? = some k.second) :
    ∃ j, i = j + 1 ∧ ts[j]? = some k.first ∧ (j + 1 < first ∨ last < j) := by
  obtain ⟨hsecond, hcut, -⟩ := (hover.half hi k.isCategory1_second).1 ht
  obtain ⟨j, rfl, hfirst⟩ := hpaired.first_of_second hsecond
  have hne : j ≠ last := by
    rintro rfl
    exact hcut ⟨rfl, k, hfirst⟩
  exact ⟨j, rfl, hfirst, by omega⟩

end Overwrites

namespace LocalsMatch

variable {ts ts' : List VerificationType} {ws ws' : List Word}

/-- The locals after a store of one or two slots, which are matched among themselves. -/
theorem overwrite (hmatch : LocalsMatch ok ts ws) (hbogus : ∀ w, ok .bogus w) {first last : Nat}
    (hle : first ≤ last) (hover : Overwrites first last ts ts') (hlength : ws'.length = ws.length)
    (hkeep : ∀ i, i < first ∨ last < i → ws'[i]? = ws[i]?)
    (hone : ∀ i t w, first ≤ i → i ≤ last → ts'[i]? = some t → ws'[i]? = some w →
      t.isCategory1 = true → ok t w)
    (hfirst : ∀ i (k : Wide), first ≤ i → i ≤ last → ts'[i]? = some k.first →
      ts'[i + 1]? = some k.second ∧
        ∃ bits, ws'[i]? = some (k.word bits) ∧ ws'[i + 1]? = some (k.word2 bits))
    (hsecond : ∀ i (k : Wide), first ≤ i → i ≤ last → ts'[i]? = some k.second →
      ∃ j, i = j + 1 ∧ ts'[j]? = some k.first) :
    LocalsMatch ok ts' ws' := by
  have hpaired := hmatch.paired
  refine ⟨by rw [hover.length_eq, hlength, hmatch.length_eq], ⟨?_, ?_⟩, ?_, ?_⟩
  · intro i k hi
    by_cases hin : first ≤ i ∧ i ≤ last
    · exact (hfirst i k hin.1 hin.2 hi).1
    · have hside := hover.side_of_first hpaired (by omega) hi
      have hpair := hover.pair_iff (k := k) hpaired hle hside
      exact hpair.2.2 (hpaired.second_of_first (hpair.1.1 hi))
  · intro i k hi
    by_cases hin : first ≤ i ∧ i ≤ last
    · exact hsecond i k hin.1 hin.2 hi
    · obtain ⟨j, rfl, hj, hside⟩ := hover.side_of_second hpaired (by omega) hi
      exact ⟨j, rfl, (hover.pair_iff hpaired hle hside).1.2 hj⟩
  · intro i t w ht hw hcat
    by_cases hin : first ≤ i ∧ i ≤ last
    · exact hone i t w hin.1 hin.2 ht hw hcat
    · rw [hkeep i (by omega)] at hw
      rcases hover.one (by omega) ht hcat with ht | rfl
      · exact hmatch.one ht hw hcat
      · exact hbogus w
  · intro i k hi
    by_cases hin : first ≤ i ∧ i ≤ last
    · exact (hfirst i k hin.1 hin.2 hi).2
    · have hside := hover.side_of_first hpaired (by omega) hi
      obtain ⟨bits, hw, hw'⟩ := hmatch.two k ((hover.pair_iff hpaired hle hside).1.1 hi)
      exact ⟨bits, by rw [hkeep i (by omega), hw], by rw [hkeep (i + 1) (by omega), hw']⟩

/-- `set_local` and a store of one slot -/
theorem setLocal (hmatch : LocalsMatch ok ts ws) (hbogus : ∀ w, ok .bogus w) {index : Nat}
    {t : VerificationType} {w : Word} (hcat : t.isCategory1 = true) (hw : ok t w) :
    LocalsMatch ok ((cutBefore index (cutAfter index ts)).set index t) (ws.set index w) := by
  have hget {i : Nat} {t' : VerificationType} (hle : index ≤ i) (hge : i ≤ index)
      (ht' : ((cutBefore index (cutAfter index ts)).set index t)[i]? = some t') :
      i = index ∧ t' = t := by
    obtain rfl : i = index := by omega
    obtain ⟨hlt, heq⟩ := List.getElem?_eq_some_iff.1 ht'
    rw [List.getElem_set_self] at heq
    exact ⟨rfl, heq.symm⟩
  refine hmatch.overwrite hbogus (Nat.le_refl index) (overwrites_cut (Nat.le_refl index) (by simp)
    fun i hi => List.getElem?_set_ne (by omega)) (by simp)
    (fun i hi => List.getElem?_set_ne (by omega)) ?_ ?_ ?_
  · intro i t' w' hle hge ht' hw' _
    obtain ⟨rfl, rfl⟩ := hget hle hge ht'
    obtain ⟨hlt, heq⟩ := List.getElem?_eq_some_iff.1 hw'
    rw [List.getElem_set_self] at heq
    exact heq ▸ hw
  · intro i k hle hge ht'
    obtain ⟨-, rfl⟩ := hget hle hge ht'
    rw [k.isCategory1_first] at hcat
    cases hcat
  · intro i k hle hge ht'
    obtain ⟨-, rfl⟩ := hget hle hge ht'
    rw [k.isCategory1_second] at hcat
    cases hcat

/-- `set_local_2` and a store of two slots -/
theorem setLocal2 (hmatch : LocalsMatch ok ts ws) (hbogus : ∀ w, ok .bogus w) {index : Nat}
    (hlt : index + 1 < ts.length) (k : Wide) (bits : BitVec 64) :
    LocalsMatch ok
      (((cutBefore index (cutAfter (index + 1) ts)).set index k.first).set (index + 1) k.second)
      ((ws.set index (k.word bits)).set (index + 1) (k.word2 bits)) := by
  generalize hts' : ((cutBefore index (cutAfter (index + 1) ts)).set index k.first).set (index + 1)
    k.second = ts'
  generalize hws' : (ws.set index (k.word bits)).set (index + 1) (k.word2 bits) = ws'
  have hlength := hmatch.length_eq
  have hfirst : ts'[index]? = some k.first := by
    rw [← hts', List.getElem?_set_ne (by omega), List.getElem?_set_self (by simp; omega)]
  have hsecond : ts'[index + 1]? = some k.second := by
    rw [← hts', List.getElem?_set_self (by simp; omega)]
  have hword : ws'[index]? = some (k.word bits) := by
    rw [← hws', List.getElem?_set_ne (by omega), List.getElem?_set_self (by omega)]
  have hword2 : ws'[index + 1]? = some (k.word2 bits) := by
    rw [← hws', List.getElem?_set_self (by simp; omega)]
  have hle : index ≤ index + 1 := Nat.le_succ index
  refine hmatch.overwrite hbogus hle (overwrites_cut hle (by rw [← hts']; simp) fun i hi => by
    rw [← hts', List.getElem?_set_ne (by omega), List.getElem?_set_ne (by omega)])
    (by rw [← hws']; simp) (fun i hi => by
      rw [← hws', List.getElem?_set_ne (by omega), List.getElem?_set_ne (by omega)]) ?_ ?_ ?_
  · intro i t w hge hle' ht hw hcat
    obtain rfl | rfl : i = index ∨ i = index + 1 := by omega
    · rw [hfirst] at ht
      cases ht
      simp at hcat
    · rw [hsecond] at ht
      cases ht
      simp at hcat
  · intro i k' hge hle' ht
    obtain rfl | rfl : i = index ∨ i = index + 1 := by omega
    · rw [hfirst] at ht
      obtain rfl := Wide.first_injective (Option.some.inj ht)
      exact ⟨hsecond, bits, hword, hword2⟩
    · rw [hsecond] at ht
      exact absurd (Option.some.inj ht).symm (Wide.first_ne_second k' k)
  · intro i k' hge hle' ht
    obtain rfl | rfl : i = index ∨ i = index + 1 := by omega
    · rw [hfirst] at ht
      exact absurd (Option.some.inj ht) (Wide.first_ne_second k k')
    · rw [hsecond] at ht
      obtain rfl := Wide.second_injective (Option.some.inj ht)
      exact ⟨index, rfl, hfirst⟩

end LocalsMatch
end HotSpot
