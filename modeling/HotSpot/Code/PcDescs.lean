import HotSpot.Lib.Simulation
import Mathlib.Algebra.Order.Ring.Int
import Mathlib.Data.List.Count
import Mathlib.Data.List.Range
import Mathlib.Data.Nat.Find
import Mathlib.Tactic.Common

/-! # Finding a PcDesc

The table of an nmethod that maps pcs to scopes is searched behind a small cache: the last
hit, then the last few results, then a search in steps that get smaller. A search that
reads outside the table, or whose loop has not ended, is `none`.
-/

namespace HotSpot

/-- The part of a record that the search reads. -/
structure PcDesc where
  pcOffset : Int
  isMethodHandleInvoke : Bool
  deriving DecidableEq, Repr

namespace PcDesc

def lowerOffsetLimit : Int := -1

def upperOffsetLimit : Int := 2 ^ 31 - 1

end PcDesc

/-- Records by their index in the table; no last one is that of a native method. -/
structure PcDescCache where
  lastPcDesc : Option Nat
  pcDescs : List Nat
  deriving DecidableEq, Repr

structure Nmethod where
  instructionsBegin : Int
  instructionsSize : Nat
  scopesPcs : List PcDesc
  hasMethodHandleInvokes : Bool
  pcDescCache : PcDescCache
  deriving DecidableEq, Repr

namespace PcDescCache

def cacheSize : Nat := 4

def resetTo : Option Nat → PcDescCache → PcDescCache
  | none, cache => { cache with lastPcDesc := none }
  | some initialPcDesc, _ => ⟨some (initialPcDesc + 1), List.replicate cacheSize initialPcDesc⟩

/-- The shift of `add_pc_desc`. -/
def shift : Nat → List Nat → List Nat
  | _, [] => []
  | pcDesc, next :: pcDescs => pcDesc :: shift next pcDescs

def addPcDesc (cache : PcDescCache) (pcDesc : Nat) : PcDescCache :=
  { cache with pcDescs := shift pcDesc cache.pcDescs }

end PcDescCache

namespace Nmethod

variable (nm : Nmethod)

def offsetAt (pc : Nat) : Option Int := nm.scopesPcs[pc]?.map (·.pcOffset)

def matchDesc (pc : Nat) (pcOffset : Int) (approximate : Bool) : Option Bool :=
  if !approximate then do
    let offset ← nm.offsetAt pc
    return offset == pcOffset
  else if pc = 0 then none
  else do
    let before ← nm.offsetAt (pc - 1)
    if before < pcOffset then do
      let offset ← nm.offsetAt pc
      return decide (pcOffset ≤ offset)
    else return false

/-- The loop over the cache. -/
def searchCache (pcOffset : Int) (approximate : Bool) : List Nat → Option (Option Nat)
  | [] => some none
  | res :: pcDescs => do
      let offset ← nm.offsetAt res
      if offset < 0 then return none
      else do
        let found ← nm.matchDesc res pcOffset approximate
        if found then return some res else searchCache pcOffset approximate pcDescs

/-- `PcDescCache::find_pc_desc`, with the last hit that it leaves. -/
def findInCache (pcOffset : Int) (approximate : Bool) : Option (Option Nat × PcDescCache) :=
  match nm.pcDescCache.lastPcDesc with
  | none => some (none, nm.pcDescCache)
  | some res => do
      let found ← nm.matchDesc res pcOffset approximate
      if found then return (some res, nm.pcDescCache)
      else do
        match ← nm.searchCache pcOffset approximate nm.pcDescCache.pcDescs with
        | some res => return (some res, { nm.pcDescCache with lastPcDesc := some res })
        | none => return (none, nm.pcDescCache)

/-- `LOG2_RADIX` -/
def log2Radix (debug : Bool) : Nat := if debug then 3 else 4

/-- The steps of one size. -/
def takeSteps (pcOffset : Int) (step : Nat) : Nat → Nat → Nat → Option (Nat × Nat)
  | 0, _, _ => none
  | fuel + 1, lower, upper =>
    let mid := lower + step
    if mid < upper then do
      let offset ← nm.offsetAt mid
      if offset < pcOffset then takeSteps pcOffset step fuel mid upper
      else return (lower, mid)
    else some (lower, upper)

/-- Giant steps at first, and smaller ones then. -/
def giantSteps (debug : Bool) (pcOffset : Int) : Nat → Nat → Nat → Nat → Option (Nat × Nat)
  | 0, step, lower, upper => if 1 < step then none else some (lower, upper)
  | fuel + 1, step, lower, upper =>
    if 1 < step then do
      let (lower, upper) ← nm.takeSteps pcOffset step nm.scopesPcs.length lower upper
      giantSteps debug pcOffset fuel (step >>> log2Radix debug) lower upper
    else some (lower, upper)

/-- The linear search at the end, for the upper one of two neighbours. -/
def sneakUp (pcOffset : Int) : Nat → Nat → Option Nat
  | 0, _ => none
  | fuel + 1, lower => do
      let mid := lower + 1
      let offset ← nm.offsetAt mid
      if offset < pcOffset then sneakUp pcOffset fuel mid else return mid

/-- The search without the cache, for the record that would have to match. -/
def searchTable (debug : Bool) (pcOffset : Int) (lower upper : Nat) : Option Nat := do
  -- Use the last successful return as a split point.
  let mid ← nm.pcDescCache.lastPcDesc
  let offset ← nm.offsetAt mid
  let (lower, upper) := if offset < pcOffset then (mid, upper) else (lower, mid)
  let (lower, _) ← nm.giantSteps debug pcOffset 3 (1 <<< (log2Radix debug * 3)) lower upper
  nm.sneakUp pcOffset nm.scopesPcs.length lower

/-- `nmethod::find_pc_desc_internal` -/
def findPcDescInternal (debug : Bool) (pc : Int) (approximate : Bool) :
    Option (Option Nat × Nmethod) :=
  if pc < nm.instructionsBegin ∨ PcDesc.upperOffsetLimit ≤ pc - nm.instructionsBegin then
    some (none, nm)
  else do
    let pcOffset := pc - nm.instructionsBegin
    match ← nm.findInCache pcOffset approximate with
    | (some res, cache) => return (some res, { nm with pcDescCache := cache })
    | (none, cache) =>
      let nm := { nm with pcDescCache := cache }
      let upper := nm.scopesPcs.length - 1
      if upper = 0 then return (none, nm)
      else do
        let upper ← nm.searchTable debug pcOffset 0 upper
        let found ← nm.matchDesc upper pcOffset approximate
        if found then
          return (some upper, { nm with pcDescCache := nm.pcDescCache.addPcDesc upper })
        else return (none, nm)

/-- Queries one after another. -/
def findPcDescs (debug : Bool) (nm : Nmethod) :
    List (Int × Bool) → Option (List (Option Nat) × Nmethod)
  | [] => some ([], nm)
  | (pc, approximate) :: queries => do
      let (res, nm) ← nm.findPcDescInternal debug pc approximate
      let (results, nm) ← nm.findPcDescs debug queries
      return (res :: results, nm)

/-! ## Linear search -/

inductive LinearResult where
  | null
  | desc (pc : Nat)
  | badAddress
  deriving DecidableEq, Repr

def LinearResult.add : LinearResult → Nat → LinearResult
  | .null, p => .desc p
  | _, _ => .badAddress

/-- `linear_search` -/
def linearSearch (pcOffset : Int) (approximate : Bool) : Option LinearResult :=
  (List.range' 1 (nm.scopesPcs.length - 1)).foldlM (fun res p => do
    let found ← nm.matchDesc p pcOffset approximate
    return if found then res.add p else res) .null

/-- What a search returns as what the linear one does. -/
def LinearResult.ofResult : Option Nat → LinearResult
  | none => .null
  | some pc => .desc pc

end Nmethod

end HotSpot

/-! ## The search for a PcDesc is the linear search

What every part of the search looks for is the first record at or above the offset.
The cache only ever holds records up to the final sentinel, so a hit in it is that
record too, and the steps of the search keep it between the lower and the upper one.
-/

namespace HotSpot.Nmethod

/-! ## Tables -/

/-- The offset of a record, where there is one. -/
def offset (nm : Nmethod) (i : Nat) : Int := ((nm.scopesPcs[i]?).map (·.pcOffset)).getD 0

/-- The offset of the sentinel at the end. -/
def limit (nm : Nmethod) : Int := nm.instructionsSize + 1

/-- A table that is strictly increasing from the one sentinel to the other, with copies of
the final one behind it. -/
structure Tabled (nm : Nmethod) (final : Nat) : Prop where
  final_pos : 0 < final
  final_lt : final < nm.scopesPcs.length
  first : nm.offset 0 = PcDesc.lowerOffsetLimit
  increasing : ∀ i < final, nm.offset i < nm.offset (i + 1)
  copies : ∀ i, final ≤ i → i < nm.scopesPcs.length → nm.offset i = nm.limit

theorem offsetAt_eq {nm : Nmethod} {i : Nat} (hi : i < nm.scopesPcs.length) :
    nm.offsetAt i = some (nm.offset i) := by
  unfold offsetAt offset
  rw [List.getElem?_eq_getElem hi]
  rfl

section

variable {nm : Nmethod} {final : Nat} (htable : nm.Tabled final)
include htable

theorem Tabled.lt_of_lt {i j : Nat} (hij : i < j) (hj : j ≤ final) :
    nm.offset i < nm.offset j := by
  induction j, hij using Nat.le_induction with
  | base => exact htable.increasing i hj
  | succ j hij ih => exact (ih (by omega)).trans (htable.increasing j hj)

theorem Tabled.le_of_le {i j : Nat} (hij : i ≤ j) (hj : j < nm.scopesPcs.length) :
    nm.offset i ≤ nm.offset j := by
  rcases hij.eq_or_lt with rfl | hij
  · exact le_rfl
  rcases Nat.lt_or_ge i final with hi | hi
  · rcases Nat.le_total j final with hjf | hfj
    · exact (htable.lt_of_lt hij hjf).le
    · rw [htable.copies j hfj hj, ← htable.copies final le_rfl htable.final_lt]
      exact (htable.lt_of_lt hi le_rfl).le
  · rw [htable.copies i hi (hij.trans hj), htable.copies j (hi.trans hij.le) hj]

/-- Only the sentinel in front has an offset below zero. -/
theorem Tabled.offset_neg_iff {i : Nat} (hi : i ≤ final) : nm.offset i < 0 ↔ i = 0 := by
  have hfirst : nm.offset 0 = -1 := htable.first
  rcases Nat.eq_zero_or_pos i with rfl | hpos
  · simp [hfirst]
  · have := htable.lt_of_lt hpos hi
    omega

end

/-! ## What is looked for -/

/-- The record is the first at or above the offset. -/
structure First (nm : Nmethod) (pcOffset : Int) (i : Nat) : Prop where
  pos : 0 < i
  lt : i < nm.scopesPcs.length
  before : nm.offset (i - 1) < pcOffset
  le : pcOffset ≤ nm.offset i

/-- `match_desc` of a record of the table -/
def Matches (nm : Nmethod) (pcOffset : Int) (approximate : Bool) (i : Nat) : Prop :=
  if approximate then nm.offset (i - 1) < pcOffset ∧ pcOffset ≤ nm.offset i
  else nm.offset i = pcOffset

instance (nm : Nmethod) (pcOffset : Int) (approximate : Bool) :
    DecidablePred (nm.Matches pcOffset approximate) := fun i => by
  unfold Matches
  infer_instance

/-- The records that the linear search selects. -/
def selected (nm : Nmethod) (pcOffset : Int) (approximate : Bool) : List Nat :=
  (List.range' 1 (nm.scopesPcs.length - 1)).filter (nm.Matches pcOffset approximate ·)

theorem matchDesc_eq {nm : Nmethod} {i : Nat} (pcOffset : Int) (approximate : Bool)
    (hpos : 0 < i) (hi : i < nm.scopesPcs.length) :
    nm.matchDesc i pcOffset approximate = some (decide (nm.Matches pcOffset approximate i)) := by
  have hbefore : i - 1 < nm.scopesPcs.length := by omega
  unfold matchDesc Matches
  cases approximate with
  | false => simp [offsetAt_eq hi]; rfl
  | true =>
    rw [offsetAt_eq hi, offsetAt_eq hbefore]
    by_cases hlt : nm.offset (i - 1) < pcOffset <;> simp [hlt, hpos.ne']

theorem mem_selected {nm : Nmethod} {pcOffset : Int} {approximate : Bool} {i : Nat} :
    i ∈ nm.selected pcOffset approximate ↔
      (0 < i ∧ i < nm.scopesPcs.length) ∧ nm.Matches pcOffset approximate i := by
  unfold selected
  rw [List.mem_filter, List.mem_range'_1, decide_eq_true_iff]
  refine and_congr_left' ?_
  omega

section

variable {nm : Nmethod} {final : Nat} (htable : nm.Tabled final)
include htable

theorem Tabled.first_le {pcOffset : Int} {i : Nat} (hi : nm.First pcOffset i) : i ≤ final := by
  by_contra hlt
  have hbefore := htable.copies (i - 1) (by omega) (by have := hi.lt; omega)
  have hat := htable.copies i (by omega) hi.lt
  have := hi.before
  have := hi.le
  omega

theorem Tabled.first_unique {pcOffset : Int} {i j : Nat} (hi : nm.First pcOffset i)
    (hj : nm.First pcOffset j) : i = j := by
  have hle {i j : Nat} (hi : nm.First pcOffset i) (hj : nm.First pcOffset j) : i ≤ j := by
    by_contra hlt
    have := htable.le_of_le (i := j) (j := i - 1) (by omega) (by have := hi.lt; omega)
    have := hi.before
    have := hj.le
    omega
  exact Nat.le_antisymm (hle hi hj) (hle hj hi)

/-- There is a record at or above every offset up to the final sentinel. -/
theorem Tabled.exists_first {pcOffset : Int} (hpos : 0 ≤ pcOffset) (hle : pcOffset ≤ nm.limit) :
    ∃ i, nm.First pcOffset i := by
  have hfirst : nm.offset 0 = -1 := htable.first
  have hfinal := htable.copies final le_rfl htable.final_lt
  have hex : ∃ i, pcOffset ≤ nm.offset i := ⟨final, by omega⟩
  have hspec := Nat.find_spec hex
  have hi : 0 < Nat.find hex := by
    rcases Nat.eq_zero_or_pos (Nat.find hex) with hzero | hi
    · rw [hzero] at hspec
      omega
    · exact hi
  have hlt := Nat.find_min' hex (show pcOffset ≤ nm.offset final by omega)
  refine ⟨Nat.find hex, hi, hlt.trans_lt htable.final_lt, ?_, hspec⟩
  exact not_le.mp (Nat.find_min hex (by omega))

/-- A record up to the final sentinel that matches is the first one. -/
theorem Tabled.first_of_matches {pcOffset : Int} {approximate : Bool} {i : Nat} (hpos : 0 < i)
    (hi : i ≤ final) (hmatches : nm.Matches pcOffset approximate i) : nm.First pcOffset i := by
  have hlt := hi.trans_lt htable.final_lt
  cases approximate with
  | true => exact ⟨hpos, hlt, hmatches.1, hmatches.2⟩
  | false =>
    have hat : nm.offset i = pcOffset := hmatches
    have := htable.lt_of_lt (i := i - 1) (j := i) (by omega) hi
    exact ⟨hpos, hlt, by omega, by omega⟩

/-- Where a record matches, the first one does. -/
theorem Tabled.matches_first {pcOffset : Int} {approximate : Bool} {i j : Nat}
    (hi : nm.First pcOffset i) (hpos : 0 < j) (hj : j < nm.scopesPcs.length)
    (hmatches : nm.Matches pcOffset approximate j) : nm.Matches pcOffset approximate i := by
  rcases Nat.le_total j final with hle | hle
  · rwa [htable.first_unique hi (htable.first_of_matches hpos hle hmatches)]
  cases approximate with
  | true => exact ⟨hi.before, hi.le⟩
  | false =>
    -- A copy of the sentinel matches only where the sentinel does.
    have hlimit : nm.limit = pcOffset := (htable.copies j hle hj).symm.trans hmatches
    have hfinal : nm.Matches pcOffset false final :=
      (htable.copies final le_rfl htable.final_lt).trans hlimit
    rwa [htable.first_unique hi (htable.first_of_matches htable.final_pos le_rfl hfinal)]

/-- The linear search selects the first record in front, or none. -/
theorem Tabled.head?_selected {pcOffset : Int} {i : Nat} (approximate : Bool)
    (hi : nm.First pcOffset i) :
    (nm.selected pcOffset approximate).head? =
      if nm.Matches pcOffset approximate i then some i else none := by
  unfold selected
  rw [List.head?_filter]
  split
  next hmatches =>
    rw [List.find?_range'_eq_some]
    refine ⟨by simpa using hmatches, ?_, fun j hj hji => ?_⟩
    · rw [List.mem_range'_1]
      have := hi.pos
      have := hi.lt
      omega
    · have := htable.first_le hi
      have hne : ¬ nm.Matches pcOffset approximate j := fun hmatches =>
        hji.ne (htable.first_unique (htable.first_of_matches hj (by omega) hmatches) hi)
      simpa using hne
  next hmatches =>
    rw [List.find?_eq_none]
    intro j hj hfound
    rw [List.mem_range'_1] at hj
    have hfound : nm.Matches pcOffset approximate j := by simpa using hfound
    exact hmatches (htable.matches_first hi (by omega) (by omega) hfound)

end

/-! ## Search -/

/-- The invariant on `lower` and `upper` during the search. -/
structure Brackets (nm : Nmethod) (pcOffset : Int) (lower upper : Nat) : Prop where
  lt : lower < upper
  inside : upper < nm.scopesPcs.length
  below : nm.offset lower < pcOffset
  above : pcOffset ≤ nm.offset upper

section

variable {nm : Nmethod} {pcOffset : Int}

theorem takeSteps_brackets {step : Nat} (hstep : 0 < step) {fuel lower upper : Nat}
    (hfuel : upper ≤ lower + fuel) (hbrackets : nm.Brackets pcOffset lower upper) :
    ∃ lower' upper', nm.takeSteps pcOffset step fuel lower upper = some (lower', upper') ∧
      nm.Brackets pcOffset lower' upper' := by
  induction fuel generalizing lower with
  | zero =>
    have := hbrackets.lt
    omega
  | succ fuel ih =>
    have hinside := hbrackets.inside
    by_cases hmid : lower + step < upper
    · by_cases hless : nm.offset (lower + step) < pcOffset
      · obtain ⟨lower', upper', htake, hnext⟩ :=
          ih (show upper ≤ lower + step + fuel by omega)
            ⟨hmid, hinside, hless, hbrackets.above⟩
        refine ⟨lower', upper', ?_, hnext⟩
        rw [← htake, takeSteps]
        simp [hmid, offsetAt_eq (hmid.trans hinside), hless]
      · refine ⟨lower, lower + step, ?_, by omega, by omega, hbrackets.below, not_lt.mp hless⟩
        rw [takeSteps]
        simp [hmid, offsetAt_eq (hmid.trans hinside), hless]
    · refine ⟨lower, upper, ?_, hbrackets⟩
      rw [takeSteps]
      simp [hmid]

theorem log2Radix_pos (debug : Bool) : 0 < log2Radix debug := by
  cases debug <;> decide

/-- Giant steps start with a power of the radix, and end with the step one. -/
theorem giantSteps_brackets (debug : Bool) (digits : Nat) {lower upper : Nat}
    (hbrackets : nm.Brackets pcOffset lower upper) :
    ∃ lower' upper', nm.giantSteps debug pcOffset digits (1 <<< (log2Radix debug * digits))
        lower upper = some (lower', upper') ∧
      nm.Brackets pcOffset lower' upper' := by
  induction digits generalizing lower upper with
  | zero => exact ⟨lower, upper, by simp [giantSteps], hbrackets⟩
  | succ digits ih =>
    have hradix := log2Radix_pos debug
    have hlarge : 1 < 1 <<< (log2Radix debug * (digits + 1)) := by
      rw [Nat.one_shiftLeft]
      exact Nat.one_lt_two_pow (Nat.mul_pos hradix digits.succ_pos).ne'
    have hnext : (1 <<< (log2Radix debug * (digits + 1))) >>> log2Radix debug =
        1 <<< (log2Radix debug * digits) := by
      rw [Nat.mul_succ, Nat.shiftLeft_add, Nat.shiftLeft_shiftRight]
    have hinside := hbrackets.inside
    have hpositive : 0 < 1 <<< (log2Radix debug * (digits + 1)) := by omega
    have hfuel : upper ≤ lower + nm.scopesPcs.length := by omega
    obtain ⟨lower₁, upper₁, htake, hbrackets⟩ :=
      takeSteps_brackets hpositive hfuel hbrackets
    obtain ⟨lower₂, upper₂, hgiant, hbrackets⟩ := ih hbrackets
    refine ⟨lower₂, upper₂, ?_, hbrackets⟩
    rw [giantSteps]
    simp only [hlarge, if_true, htake, Option.bind_eq_bind, Option.bind_some, hnext]
    exact hgiant

theorem sneakUp_first {fuel lower upper : Nat} (hfuel : upper ≤ lower + fuel)
    (hbrackets : nm.Brackets pcOffset lower upper) :
    ∃ i, nm.sneakUp pcOffset fuel lower = some i ∧ nm.First pcOffset i := by
  have hlt := hbrackets.lt
  have hinside := hbrackets.inside
  induction fuel generalizing lower with
  | zero => omega
  | succ fuel ih =>
    by_cases hless : nm.offset (lower + 1) < pcOffset
    · have hne : lower + 1 ≠ upper := by
        rintro rfl
        exact hless.not_ge hbrackets.above
      obtain ⟨i, hsneak, hi⟩ := ih (show upper ≤ lower + 1 + fuel by omega)
        ⟨by omega, hinside, hless, hbrackets.above⟩ (by omega)
      refine ⟨i, ?_, hi⟩
      rw [← hsneak, sneakUp]
      simp [offsetAt_eq (show lower + 1 < nm.scopesPcs.length by omega), hless]
    · refine ⟨lower + 1, ?_, by omega, by omega, hbrackets.below, not_lt.mp hless⟩
      rw [sneakUp]
      simp [offsetAt_eq (show lower + 1 < nm.scopesPcs.length by omega), hless]

end

/-! ## Cache -/

/-- What the cache holds: records up to the final sentinel, the last hit not the one in
front. -/
structure Caches (final : Nat) (cache : PcDescCache) : Prop where
  last : ∃ i, cache.lastPcDesc = some i ∧ 0 < i ∧ i ≤ final
  pcDescs : ∀ i ∈ cache.pcDescs, i ≤ final

theorem caches_resetTo {final : Nat} (hpos : 0 < final) (cache : PcDescCache) :
    Caches final (cache.resetTo (some 0)) := by
  refine ⟨⟨1, rfl, Nat.one_pos, hpos⟩, fun i hi => ?_⟩
  rw [List.eq_of_mem_replicate hi]
  exact hpos.le

theorem mem_shift {i pcDesc : Nat} {pcDescs : List Nat}
    (hi : i ∈ PcDescCache.shift pcDesc pcDescs) : i = pcDesc ∨ i ∈ pcDescs := by
  induction pcDescs generalizing pcDesc with
  | nil => simp [PcDescCache.shift] at hi
  | cons next pcDescs ih =>
    rcases List.mem_cons.mp hi with rfl | hi
    · exact .inl rfl
    · rcases ih hi with rfl | hi
      · exact .inr List.mem_cons_self
      · exact .inr (List.mem_cons_of_mem _ hi)

theorem Caches.addPcDesc {final i : Nat} {cache : PcDescCache} (hcache : Caches final cache)
    (hi : i ≤ final) : Caches final (cache.addPcDesc i) := by
  refine ⟨hcache.last, fun j hj => ?_⟩
  rcases mem_shift hj with rfl | hj
  · exact hi
  · exact hcache.pcDescs j hj

section

variable {nm : Nmethod} {final : Nat} (htable : nm.Tabled final)
include htable

/-- The loop over the cache finds a record that matches, or nothing. -/
theorem Tabled.searchCache_spec (pcOffset : Int) (approximate : Bool) {pcDescs : List Nat}
    (hcached : ∀ i ∈ pcDescs, i ≤ final) :
    ∃ res, nm.searchCache pcOffset approximate pcDescs = some res ∧
      ∀ i ∈ res, (0 < i ∧ i ≤ final) ∧ nm.Matches pcOffset approximate i := by
  induction pcDescs with
  | nil => exact ⟨none, rfl, by simp⟩
  | cons i pcDescs ih =>
    obtain ⟨res, hsearch, hres⟩ := ih fun j hj => hcached j (List.mem_cons_of_mem _ hj)
    have hi : i ≤ final := hcached i List.mem_cons_self
    have hlt := hi.trans_lt htable.final_lt
    rw [searchCache, offsetAt_eq hlt]
    by_cases hneg : nm.offset i < 0
    · exact ⟨none, by simp [hneg], by simp⟩
    have hpos : 0 < i := Nat.pos_of_ne_zero fun hzero =>
      hneg ((htable.offset_neg_iff hi).mpr hzero)
    by_cases hmatches : nm.Matches pcOffset approximate i
    · refine ⟨some i, ?_, ?_⟩
      · simp [hneg, matchDesc_eq pcOffset approximate hpos hlt, hmatches]
      · rintro _ ⟨⟩
        exact ⟨⟨hpos, hi⟩, hmatches⟩
    · refine ⟨res, ?_, hres⟩
      simp [hneg, matchDesc_eq pcOffset approximate hpos hlt, hmatches, hsearch]

theorem Tabled.findInCache_spec (pcOffset : Int) (approximate : Bool)
    (hcache : Caches final nm.pcDescCache) :
    ∃ res cache, nm.findInCache pcOffset approximate = some (res, cache) ∧
      Caches final cache ∧
      ∀ i ∈ res, (0 < i ∧ i ≤ final) ∧ nm.Matches pcOffset approximate i := by
  obtain ⟨last, hlast, hpos, hle⟩ := hcache.last
  have hmatch := matchDesc_eq pcOffset approximate hpos (hle.trans_lt htable.final_lt)
  unfold findInCache
  by_cases hmatches : nm.Matches pcOffset approximate last
  · refine ⟨some last, nm.pcDescCache, ?_, hcache, ?_⟩
    · simp [hlast, hmatch, hmatches]
    · rintro _ ⟨⟩
      exact ⟨⟨hpos, hle⟩, hmatches⟩
  obtain ⟨res, hsearch, hres⟩ := htable.searchCache_spec pcOffset approximate hcache.pcDescs
  cases res with
  | none =>
    refine ⟨none, nm.pcDescCache, ?_, hcache, hres⟩
    simp [hlast, hmatch, hmatches, hsearch]
  | some i =>
    have hi := (hres i rfl).1
    refine ⟨some i, { nm.pcDescCache with lastPcDesc := some i }, ?_,
      ⟨⟨i, rfl, hi⟩, hcache.pcDescs⟩, hres⟩
    simp [hlast, hmatch, hmatches, hsearch]

/-- The search without the cache ends at the first record at or above the offset. -/
theorem Tabled.searchTable_first (debug : Bool) {pcOffset : Int} (hpos : 0 ≤ pcOffset)
    (hle : pcOffset ≤ nm.limit) (hcache : Caches final nm.pcDescCache) :
    ∃ i, nm.searchTable debug pcOffset 0 (nm.scopesPcs.length - 1) = some i ∧
      nm.First pcOffset i := by
  obtain ⟨mid, hlast, hmidPos, hmid⟩ := hcache.last
  have hfinal := htable.final_lt
  have hfirst : nm.offset 0 = -1 := htable.first
  have hend := htable.copies (nm.scopesPcs.length - 1) (by omega) (by omega)
  have hsplit : nm.Brackets pcOffset (if nm.offset mid < pcOffset then mid else 0)
      (if nm.offset mid < pcOffset then nm.scopesPcs.length - 1 else mid) := by
    split
    next hless =>
      refine ⟨?_, by omega, hless, by omega⟩
      by_contra hge
      -- A split point at the end of the table is not below the offset.
      have : nm.offset mid = nm.limit := htable.copies mid (by omega) (by omega)
      omega
    next hless => exact ⟨hmidPos, by omega, by omega, by omega⟩
  obtain ⟨lower, upper, hgiant, hbrackets⟩ := giantSteps_brackets debug 3 hsplit
  have hinside := hbrackets.inside
  have hfuel : upper ≤ lower + nm.scopesPcs.length := by omega
  obtain ⟨i, hsneak, hi⟩ := sneakUp_first hfuel hbrackets
  refine ⟨i, ?_, hi⟩
  unfold searchTable
  rw [hlast, ← hsneak]
  by_cases hless : nm.offset mid < pcOffset
  · simp only [hless, if_true] at hgiant
    simp [offsetAt_eq (hmid.trans_lt hfinal), hless, hgiant]
  · simp only [hless, if_false] at hgiant
    simp [offsetAt_eq (hmid.trans_lt hfinal), hless, hgiant]

theorem Tabled.withCache (cache : PcDescCache) :
    Tabled { nm with pcDescCache := cache } final :=
  ⟨htable.final_pos, htable.final_lt, htable.first, htable.increasing, htable.copies⟩

end

/-- The record that the linear search selects first, of a pc that is not out of range. -/
def answer (nm : Nmethod) (pc : Int) (approximate : Bool) : Option Nat :=
  if PcDesc.upperOffsetLimit ≤ pc - nm.instructionsBegin then none
  else (nm.selected (pc - nm.instructionsBegin) approximate).head?

section

variable {nm : Nmethod} {final : Nat} (htable : nm.Tabled final)
include htable

theorem Tabled.findPcDescInternal_spec (debug : Bool) {pc : Int} (approximate : Bool)
    (hcache : Caches final nm.pcDescCache) (hbegin : nm.instructionsBegin ≤ pc)
    (hle : pc - nm.instructionsBegin ≤ nm.limit) :
    ∃ cache, nm.findPcDescInternal debug pc approximate =
        some (nm.answer pc approximate, { nm with pcDescCache := cache }) ∧
      Caches final cache := by
  unfold findPcDescInternal answer
  by_cases hwild : PcDesc.upperOffsetLimit ≤ pc - nm.instructionsBegin
  · exact ⟨nm.pcDescCache, by simp [hwild], hcache⟩
  have hrange : ¬ (pc < nm.instructionsBegin ∨
      PcDesc.upperOffsetLimit ≤ pc - nm.instructionsBegin) := by omega
  rw [if_neg hrange, if_neg hwild]
  obtain ⟨i, hi⟩ := htable.exists_first (by omega) hle
  obtain ⟨res, cache, hfind, hcache, hres⟩ :=
    htable.findInCache_spec (pc - nm.instructionsBegin) approximate hcache
  rw [htable.head?_selected approximate hi]
  simp only [hfind, Option.bind_eq_bind, Option.bind_some]
  cases res with
  | some res =>
    obtain ⟨⟨hpos, hle⟩, hmatches⟩ := hres res rfl
    obtain rfl := htable.first_unique (htable.first_of_matches hpos hle hmatches) hi
    exact ⟨cache, by simp [hmatches], hcache⟩
  | none =>
    have hlength : ¬ nm.scopesPcs.length - 1 = 0 := by
      have := htable.final_pos
      have := htable.final_lt
      omega
    obtain ⟨i', hsearch, hi'⟩ :=
      (htable.withCache cache).searchTable_first debug (by omega) hle hcache
    obtain rfl := htable.first_unique (show nm.First _ i' from ⟨hi'.1, hi'.2, hi'.3, hi'.4⟩) hi
    have hmatch : matchDesc { nm with pcDescCache := cache } i'
        (pc - nm.instructionsBegin) approximate =
        some (decide (nm.Matches (pc - nm.instructionsBegin) approximate i')) :=
      matchDesc_eq _ approximate hi.pos hi.lt
    by_cases hmatches : nm.Matches (pc - nm.instructionsBegin) approximate i'
    · refine ⟨cache.addPcDesc i', ?_, hcache.addPcDesc (htable.first_le hi)⟩
      simp [hlength, hsearch, hmatch, hmatches]
    · refine ⟨cache, ?_, hcache⟩
      simp [hlength, hsearch, hmatch, hmatches]

/-- Every query of a history gets the answer of the table alone. -/
theorem Tabled.findPcDescs_spec (debug : Bool) {queries : List (Int × Bool)}
    (hcache : Caches final nm.pcDescCache)
    (hqueries : ∀ query ∈ queries, nm.instructionsBegin ≤ query.1 ∧
      query.1 - nm.instructionsBegin ≤ nm.limit) :
    ∃ cache, findPcDescs debug nm queries =
        some (queries.map fun query => nm.answer query.1 query.2,
          { nm with pcDescCache := cache }) ∧
      Caches final cache := by
  induction queries generalizing nm with
  | nil => exact ⟨nm.pcDescCache, rfl, hcache⟩
  | cons query queries ih =>
    obtain ⟨pc, approximate⟩ := query
    have hquery := hqueries _ List.mem_cons_self
    obtain ⟨cache, hfind, hcache⟩ :=
      htable.findPcDescInternal_spec debug approximate hcache hquery.1 hquery.2
    obtain ⟨cache', hrest, hcache'⟩ := ih (htable.withCache cache) hcache
      fun query hmem => hqueries query (List.mem_cons_of_mem _ hmem)
    refine ⟨cache', ?_, hcache'⟩
    rw [findPcDescs, hfind]
    simp only [Option.bind_eq_bind, Option.bind_some, hrest]
    rfl

end

/-! ## What the linear search selects -/

/-- A list of selected records as what the linear search makes of it. -/
def LinearResult.ofSelected : List Nat → LinearResult
  | [] => .null
  | [pc] => .desc pc
  | _ => .badAddress

theorem foldl_add_badAddress (pcs : List Nat) :
    pcs.foldl LinearResult.add .badAddress = .badAddress := by
  induction pcs with
  | nil => rfl
  | cons pc pcs ih => exact ih

theorem foldl_add (pcs : List Nat) :
    pcs.foldl LinearResult.add .null = LinearResult.ofSelected pcs := by
  match pcs with
  | [] => rfl
  | [pc] => rfl
  | pc :: pc' :: pcs => exact foldl_add_badAddress pcs

theorem linearSearch_eq (nm : Nmethod) (pcOffset : Int) (approximate : Bool) :
    nm.linearSearch pcOffset approximate =
      some (LinearResult.ofSelected (nm.selected pcOffset approximate)) := by
  have hfold (pcs : List Nat) (hpcs : ∀ i ∈ pcs, 0 < i ∧ i < nm.scopesPcs.length)
      (res : LinearResult) :
      pcs.foldlM (fun res p => do
        let found ← nm.matchDesc p pcOffset approximate
        return if found then res.add p else res) res =
      some ((pcs.filter (nm.Matches pcOffset approximate ·)).foldl LinearResult.add res) := by
    induction pcs generalizing res with
    | nil => rfl
    | cons pc pcs ih =>
      obtain ⟨hpos, hlt⟩ := hpcs pc List.mem_cons_self
      have hrest := ih fun i hi => hpcs i (List.mem_cons_of_mem _ hi)
      rw [List.foldlM_cons, matchDesc_eq pcOffset approximate hpos hlt]
      by_cases hmatches : nm.Matches pcOffset approximate pc
      · rw [List.filter_cons_of_pos (by simpa using hmatches)]
        simp only [hmatches, decide_true]
        exact hrest (res.add pc)
      · rw [List.filter_cons_of_neg (by simpa using hmatches)]
        simp only [hmatches, decide_false]
        exact hrest res
  unfold linearSearch
  rw [hfold _ (fun i hi => by rw [List.mem_range'_1] at hi; omega), ← foldl_add]
  rfl

theorem nodup_selected (nm : Nmethod) (pcOffset : Int) (approximate : Bool) :
    (nm.selected pcOffset approximate).Nodup :=
  (List.nodup_range' ..).filter _

/-- The exact queries that match the final sentinel and its copies. -/
def Ambiguous (nm : Nmethod) (final : Nat) (pcOffset : Int) (approximate : Bool) : Prop :=
  approximate = false ∧ pcOffset = nm.limit ∧ final + 1 < nm.scopesPcs.length

instance (nm : Nmethod) (final : Nat) (pcOffset : Int) (approximate : Bool) :
    Decidable (nm.Ambiguous final pcOffset approximate) := by
  unfold Ambiguous
  infer_instance

section

variable {nm : Nmethod} {final : Nat} (htable : nm.Tabled final)
include htable

/-- Only an ambiguous query selects two records. -/
theorem Tabled.selected_unique {pcOffset : Int} {approximate : Bool}
    (hclear : ¬ nm.Ambiguous final pcOffset approximate) {i j : Nat}
    (hi : i ∈ nm.selected pcOffset approximate) (hj : j ∈ nm.selected pcOffset approximate) :
    i = j := by
  have hfirst {i : Nat} (hi : i ∈ nm.selected pcOffset approximate) : nm.First pcOffset i := by
    obtain ⟨⟨hpos, hlt⟩, hmatches⟩ := mem_selected.mp hi
    rcases Nat.lt_or_ge final i with hcopy | hle
    · cases approximate with
      | true => exact ⟨hpos, hlt, hmatches.1, hmatches.2⟩
      | false =>
        have hlimit : nm.limit = pcOffset :=
          (htable.copies i hcopy.le hlt).symm.trans hmatches
        exact absurd ⟨rfl, hlimit.symm, by omega⟩ hclear
    · exact htable.first_of_matches hpos hle hmatches
  exact htable.first_unique (hfirst hi) (hfirst hj)

theorem Tabled.ofSelected_eq {pcOffset : Int} {approximate : Bool} :
    LinearResult.ofSelected (nm.selected pcOffset approximate) =
      if nm.Ambiguous final pcOffset approximate then .badAddress
      else .ofResult (nm.selected pcOffset approximate).head? := by
  split
  next hambiguous =>
    obtain ⟨rfl, rfl, hcopy⟩ := hambiguous
    have hfinal : final ∈ nm.selected nm.limit false :=
      mem_selected.mpr ⟨⟨htable.final_pos, htable.final_lt⟩,
        htable.copies final le_rfl htable.final_lt⟩
    have hnext : final + 1 ∈ nm.selected nm.limit false :=
      mem_selected.mpr ⟨⟨final.succ_pos, hcopy⟩, htable.copies (final + 1) (by omega) hcopy⟩
    match hsel : nm.selected nm.limit false with
    | [] => simp [hsel] at hfinal
    | [pc] =>
      rw [hsel, List.mem_singleton] at hfinal hnext
      omega
    | pc :: pc' :: pcs => rfl
  next hclear =>
    match hsel : nm.selected pcOffset approximate with
    | [] => rfl
    | [pc] => rfl
    | pc :: pc' :: pcs =>
      have hne := nodup_selected nm pcOffset approximate
      rw [hsel] at hne
      have heq := htable.selected_unique hclear (i := pc) (j := pc') (by simp [hsel])
        (by simp [hsel])
      simp [heq] at hne

theorem Tabled.head?_selected_ambiguous {pcOffset : Int} {approximate : Bool}
    (hambiguous : nm.Ambiguous final pcOffset approximate) :
    (nm.selected pcOffset approximate).head? = some final := by
  obtain ⟨rfl, rfl, -⟩ := hambiguous
  have hmatches : nm.Matches nm.limit false final :=
    htable.copies final le_rfl htable.final_lt
  rw [htable.head?_selected false (htable.first_of_matches htable.final_pos le_rfl hmatches),
    if_pos hmatches]

end

/-- Whatever the history, a query returns the first record that the linear search selects.
It is the only one but for the copies of the final sentinel. -/
theorem findPcDescs_linear (debug : Bool) {nm : Nmethod} {final : Nat} (cache : PcDescCache)
    (htable : nm.Tabled final) (hcache : nm.pcDescCache = cache.resetTo (some 0))
    {queries : List (Int × Bool)}
    (hqueries : ∀ query ∈ queries, nm.instructionsBegin ≤ query.1 ∧
      query.1 - nm.instructionsBegin ≤ nm.limit) :
    (∃ cache', findPcDescs debug nm queries =
      some (queries.map fun query => nm.answer query.1 query.2,
        { nm with pcDescCache := cache' })) ∧
    ∀ pcOffset approximate,
      (nm.linearSearch pcOffset approximate =
        some (if nm.Ambiguous final pcOffset approximate then .badAddress
          else .ofResult (nm.selected pcOffset approximate).head?)) ∧
      (nm.Ambiguous final pcOffset approximate →
        (nm.selected pcOffset approximate).head? = some final) := by
  refine ⟨?_, fun pcOffset approximate => ⟨?_, htable.head?_selected_ambiguous⟩⟩
  · obtain ⟨cache', hfind, -⟩ := htable.findPcDescs_spec debug
      (hcache ▸ caches_resetTo htable.final_pos cache) hqueries
    exact ⟨cache', hfind⟩
  · rw [linearSearch_eq, htable.ofSelected_eq]

/-- Every query returns what the linear search does. -/
def FindsLinear (debug : Bool) (nm : Nmethod) (queries : List (Int × Bool)) : Prop :=
  ∃ results nm', findPcDescs debug nm queries = some (results, nm') ∧
    List.Forall₂ (fun query result =>
      nm.linearSearch (query.1 - nm.instructionsBegin) query.2 =
        some (.ofResult result)) queries results

/-- Ten bytes of code with one record, and a copy of the final sentinel. -/
def padded : Nmethod :=
  { instructionsBegin := 0
    instructionsSize := 10
    scopesPcs := [⟨-1, false⟩, ⟨5, false⟩, ⟨11, false⟩, ⟨11, false⟩]
    hasMethodHandleInvokes := false
    pcDescCache := ⟨some 1, [0, 0, 0, 0]⟩ }

theorem padded_tabled : padded.Tabled 2 :=
  ⟨by decide, by decide, by decide, by decide, by decide⟩

theorem findPcDescs_linear_padded :
    (∃ cache', findPcDescs true padded [(3, true), (5, false), (11, false), (4, false)] =
      some ([some 1, some 1, some 2, none], { padded with pcDescCache := cache' })) ∧
    padded.linearSearch 11 false = some .badAddress := by
  have hqueries : ∀ query ∈ [((3 : Int), true), (5, false), (11, false), (4, false)],
      padded.instructionsBegin ≤ query.1 ∧
        query.1 - padded.instructionsBegin ≤ padded.limit := by decide
  obtain ⟨hfind, hlinear⟩ :=
    findPcDescs_linear true padded.pcDescCache padded_tabled rfl hqueries
  exact ⟨hfind, (hlinear 11 false).1⟩

theorem padded_not_findsLinear :
    padded.Tabled 2 ∧ padded.pcDescCache = padded.pcDescCache.resetTo (some 0) ∧
      ¬ FindsLinear false padded [(11, false)] := by
  refine ⟨padded_tabled, rfl, ?_⟩
  rintro ⟨results, nm', hfind, hresults⟩
  have hlinear : padded.linearSearch 11 false = some .badAddress := by decide
  rcases hresults with _ | ⟨hresult, -⟩
  rename_i result _
  have : some LinearResult.badAddress = some (.ofResult result) := hlinear.symm.trans hresult
  cases result <;> cases this

end HotSpot.Nmethod
